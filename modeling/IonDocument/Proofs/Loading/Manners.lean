import IonDocument.Proofs.Loading.Protocol
import Mathlib.Combinatorics.Enumerative.DyckWord

/-! # Loading never misuses a cursor

Every look and every call is due when it is made, for any cursor and also in runs that fail. The
steps in and out are brackets: those that are open are exactly the containers that are open.
-/
namespace IonDocument.Loading
open Dialogue
variable {σ ε : Type}

/-- An advance that is answered with a value, which it leaves the cursor on. -/
def Lands (c : Cursor σ ε) (s : σ) (ev : Event σ) : Prop :=
  ∃ u k, ev = .call .advance u ∧ c.advance u = (.ok (some k), s)

/-- A call that uses up the value that the cursor is on. -/
def Consumes : Event σ → Prop
  | .call (.read _) _ => True
  | .call .stepIn _ => True
  | _ => False

/-- A successful step in opens, and a step out closes even if it fails. -/
def bracket (c : Cursor σ ε) : Event σ → Option DyckStep
  | .call .stepIn s =>
    match (c.stepIn s).1 with
    | .ok _ => some .U
    | .error _ => none
  | .call .stepOut _ => some .D
  | _ => none

def brackets (c : Cursor σ ε) (t : List (Event σ)) : List DyckStep := t.filterMap (bracket c)

section
variable {c : Cursor σ ε} {start s u : σ} {ev : Event σ} {past : List (Event σ)}

theorem brackets_stepIn (h : c.perform .stepIn u = (.ok (), s)) :
    brackets c (.call .stepIn u :: past) = .U :: brackets c past := by
  change c.stepIn u = _ at h
  simp only [brackets, List.filterMap_cons, bracket, h]

theorem brackets_stepIn_error {e : ε} (h : c.perform .stepIn u = (.error e, s)) :
    brackets c (.call .stepIn u :: past) = brackets c past := by
  change c.stepIn u = _ at h
  simp only [brackets, List.filterMap_cons, bracket, h]

theorem brackets_stepOut : brackets c (.call .stepOut u :: past) = .D :: brackets c past := rfl

/-- What is open are the brackets that are not yet closed. -/
theorem Proper.count_brackets (h : Proper c start past) :
    (brackets c past).count .U = (brackets c past).count .D + (opened c past).length := by
  induction h with
  | nil => rfl
  | @cons ev past h hdue ih =>
    cases hdue with
    | look _ => exact ih
    | annotations _ _ => exact ih
    | fieldName _ => exact ih
    | read _ _ _ => exact ih
    | advance _ _ => exact ih
    | @stepIn u _ _ _ _ =>
      rcases hu : c.perform .stepIn u with ⟨e | a, t⟩
      · rw [brackets_stepIn_error hu, opened_stepIn_error hu]
        exact ih
      · rw [brackets_stepIn hu, opened_stepIn hu, List.count_cons_self,
          List.count_cons_of_ne (by decide), List.length_cons]
        omega
    | @stepOut u _ hopen =>
      have hlen : (opened c past).tail.length + 1 = (opened c past).length := by
        rw [List.length_tail]
        exact Nat.sub_add_cancel (List.length_pos_of_ne_nil hopen)
      change _ = _ + (opened c past).tail.length
      rw [brackets_stepOut, List.count_cons_self, List.count_cons_of_ne (by decide)]
      omega

/-- A value is used up, or given up, and no other was landed on since. -/
def Stage.Spent : Stage σ → Prop
  | .arrived _ => False
  | .unnamed _ => False
  | .described _ => False
  | _ => True

theorem Due.of_spent (hdue : Due c start past ev) (h : (stage c start past).Spent) :
    ∃ s, ev = .call .advance s ∨ ev = .call .stepOut s := by
  cases hdue with
  | @advance s _ _ => exact ⟨s, .inl rfl⟩
  | @stepOut s _ _ => exact ⟨s, .inr rfl⟩
  | look hs => rw [hs] at h; exact h.elim
  | annotations hs _ => rw [hs] at h; exact h.elim
  | fieldName hs => rw [hs] at h; exact h.elim
  | read hs _ _ => rw [hs] at h; exact h.elim
  | stepIn hs _ _ => rw [hs] at h; exact h.elim

theorem spent_of_consumes (h : Consumes ev) : (stage c start (ev :: past)).Spent := by
  rcases ev with s | ⟨q, s⟩
  · exact h.elim
  rcases hq : c.perform q s with ⟨e | a, t⟩
  · rw [stage_of_error hq]
    trivial
  · rw [stage_of_ok hq]
    cases q with
    | stepIn => trivial
    | read k => trivial
    | annotations => exact h.elim
    | fieldName => exact h.elim
    | advance => exact h.elim
    | stepOut => exact h.elim

theorem Due.spent (hdue : Due c start past ev) (h : (stage c start past).Spent)
    (hland : ∀ t, ¬ Lands c t ev) : (stage c start (ev :: past)).Spent := by
  obtain ⟨s, rfl | rfl⟩ := hdue.of_spent h
  · rcases hq : c.perform .advance s with ⟨e | _ | k, t⟩
    · rw [stage_of_error hq]
      trivial
    · rw [stage_of_ok hq]
      trivial
    · exact (hland t ⟨s, k, rfl, hq⟩).elim
  · rcases hq : c.perform .stepOut s with ⟨e | a, t⟩
    · rw [stage_of_error hq]
      trivial
    · rw [stage_of_ok hq]
      trivial

theorem Proper.spent {between : List (Event σ)} (h : Proper c start (between ++ ev :: past))
    (hev : Consumes ev) (hland : ∀ ev' ∈ between, ∀ t, ¬ Lands c t ev') :
    (stage c start (between ++ ev :: past)).Spent := by
  induction between with
  | nil => exact spent_of_consumes hev
  | cons ev' between ih =>
    cases h with
    | cons h hdue =>
      exact hdue.spent (ih h fun e he => hland e (List.mem_cons_of_mem _ he))
        (hland ev' List.mem_cons_self)

theorem Due.not_spent_of_consumes (hdue : Due c start past ev) (h : Consumes ev) :
    ¬ (stage c start past).Spent := by
  intro hspent
  obtain ⟨s, rfl | rfl⟩ := hdue.of_spent hspent
  · exact h
  · exact h

end

section
variable {c : Cursor σ ε} {start s : σ} {t before after : List (Event σ)} {ev : Event σ}

theorem Proper.of_prefix (h : Proper c start t.reverse) (ht : before <+: t) :
    Proper c start before.reverse := by
  obtain ⟨after, rfl⟩ := ht
  rw [List.reverse_append] at h
  exact h.of_append

theorem Proper.due (h : Proper c start t.reverse) (ht : t = before ++ ev :: after) :
    Due c start before.reverse ev := by
  have hprefix : before ++ [ev] <+: t := ⟨after, (ht.trans (List.append_cons ..)).symm⟩
  have hlast := h.of_prefix hprefix
  rw [List.reverse_append] at hlast
  cases hlast with
  | cons _ hdue => exact hdue

/-- Between two values that are used up there is a landing. -/
theorem Proper.exists_landing (h : Proper c start t.reverse) {x y : Event σ}
    {between : List (Event σ)} (ht : t = before ++ x :: (between ++ y :: after))
    (hx : Consumes x) (hy : Consumes y) : ∃ ev ∈ between, ∃ v, Lands c v ev := by
  by_contra hnone
  have hsplit : t = (before ++ x :: between) ++ y :: after := by
    rw [ht, List.append_assoc, List.cons_append]
  have hdue := h.due hsplit
  have hproper := h.of_prefix ⟨y :: after, hsplit.symm⟩
  have hreverse : (before ++ x :: between).reverse = between.reverse ++ x :: before.reverse := by
    simp
  rw [hreverse] at hdue hproper
  refine hdue.not_spent_of_consumes hy (hproper.spent hx ?_)
  intro ev hev v hv
  exact hnone ⟨ev, List.mem_reverse.mp hev, v, hv⟩

theorem Proper.count_eq (h : Proper c start t.reverse) :
    (brackets c t).count .U = (brackets c t).count .D + (opened c t.reverse).length := by
  have hcount := h.count_brackets
  have hreverse : brackets c t.reverse = (brackets c t).reverse := List.filterMap_reverse
  rw [hreverse, List.count_reverse, List.count_reverse] at hcount
  exact hcount

theorem Proper.count_le (h : Proper c start t.reverse) (ht : before <+: t) :
    (brackets c before).count .D ≤ (brackets c before).count .U := by
  rw [(h.of_prefix ht).count_eq]
  exact Nat.le_add_right _ _

/-- Where nothing is open any more, the brackets are nested. -/
theorem Proper.exists_dyckWord (h : Proper c start t.reverse) (hopened : opened c t.reverse = []) :
    ∃ w : DyckWord, w.toList = brackets c t := by
  have hcount := h.count_eq
  rw [hopened] at hcount
  refine ⟨⟨brackets c t, hcount, ?_⟩, rfl⟩
  intro i
  obtain ⟨before, hbefore, htake⟩ :=
    List.prefix_filterMap_iff.mp (List.take_prefix i (brackets c t))
  rw [htake]
  exact h.count_le hbefore

/-- The name of a field is asked right after the cursor has landed on it. -/
theorem Proper.fieldName_after (h : Proper c start t.reverse)
    (hend : ∀ v, stage c start t.reverse ≠ .unnamed v) (ht : t = before ++ ev :: after)
    (hland : Lands c s ev) (hin : inStruct c before.reverse = true) :
    ∃ later, after = .call .fieldName s :: later := by
  obtain ⟨u, k, rfl, hu⟩ := hland
  have hstage : stage c start (.call .advance u :: before.reverse) = .unnamed s := by
    rw [stage_of_ok (q := .advance) hu]
    simp only [Stage.next, hin, if_true]
  have hreverse : (before ++ [Event.call .advance u]).reverse =
      .call .advance u :: before.reverse := List.reverse_concat
  cases after with
  | nil =>
    rw [ht, hreverse] at hend
    exact (hend s hstage).elim
  | cons next later =>
    have hdue := h.due (ht.trans (List.append_cons ..))
    rw [hreverse] at hdue
    exact ⟨later, congrArg (· :: later) (hdue.of_unnamed hstage)⟩

end

/-- Loading asks a cursor only what is due, in every run and however the cursor answers. The name of
each field is asked, a value is used up at most once, and no more containers are stepped out of than
were stepped into. A run that succeeds has completed its value, with the steps in and out nested. -/
theorem load_asks_what_is_due (c : Cursor σ ε) (limit : Option Nat) (fuel : Nat) (start : σ) :
    let t := (load limit fuel).trace c start
    (∀ before ev after, t = before ++ ev :: after → Due c start before.reverse ev) ∧
      (∀ before ev after s, t = before ++ ev :: after → Lands c s ev →
        inStruct c before.reverse = true → ∃ later, after = .call .fieldName s :: later) ∧
      (∀ before x between y after, t = before ++ x :: (between ++ y :: after) →
        Consumes x → Consumes y → ∃ ev ∈ between, ∃ s, Lands c s ev) ∧
      (∀ before, before <+: t → (brackets c before).count .D ≤ (brackets c before).count .U) ∧
      (∀ e s, (load limit fuel).run c start = (.ok e, s) →
        stage c start t.reverse = .completed s ∧ ∃ w : DyckWord, w.toList = brackets c t) := by
  intro t
  have hproper : Proper c start t.reverse := proper_history c limit fuel start
  refine ⟨?_, ?_, ?_, ?_, ?_⟩
  · intro before ev after ht
    exact hproper.due ht
  · intro before ev after s ht
    exact hproper.fieldName_after (stage_history_ne_unnamed c limit fuel start) ht
  · intro before x between y after ht
    exact hproper.exists_landing ht
  · intro before ht
    exact hproper.count_le ht
  · intro e s hrun
    have hend := at_of_load hrun
    exact ⟨hend.stage, hproper.exists_dyckWord hend.opened⟩

end IonDocument.Loading
