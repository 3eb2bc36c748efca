import IonDocument.Proofs.Loading.Protocol
import IonDocument.Walk

/-! # How loading fails

A call that fails ends the run, and its error is the result. All other failures are found by
loading itself, and say what is wrong: a cursor that reports what no cursor may report of a value
is found out if and only if that value is reached, and containers are too deep only by the limit.
-/
namespace IonDocument.Loading
open Dialogue
variable {σ ε : Type}

/-- What a cursor says of a value that it stands on, and may not say. A null is misreported only
after its annotations were told. -/
def Misreports (c : Cursor σ ε) (v : σ) : Misreport → Prop
  | .noValue => (c.view v).kind? = none
  | .nullWithValue => (∃ names, c.annotations v = .ok names) ∧ (c.view v).isNull = false ∧
      (c.view v).kind? = some .null

/-- The run comes to a value, and knows its name if it is that of a field. -/
def Reaches (c : Cursor σ ε) (start : σ) (t : List (Event σ)) (v : σ) : Prop :=
  ∃ before, before <+: t ∧ stage c start before.reverse = .arrived v

/-- At a misreported value nothing is left to do but to look, and to ask for its annotations. -/
structure Stuck (c : Cursor σ ε) (start : σ) (m : Misreport) (v : σ) (past : List (Event σ)) :
    Prop where
  misreports : Misreports c v m
  stage : stage c start past = .arrived v ∨
    m = .nullWithValue ∧ stage c start past = .described v

section
variable {c : Cursor σ ε} {start s v : σ} {limit : Option Nat} {m : Misreport} {ev : Event σ}
  {past : List (Event σ)}

theorem Stage.eq_of_next_described {q : Call} {a : q.Answer}
    (h : Stage.next c past q a s = .described v) :
    q = .annotations ∧ s = v ∧ (c.view v).isNull = false := by
  cases q with
  | annotations =>
    simp only [Stage.next] at h
    split at h
    · cases h
    · rename_i hnull
      obtain rfl := Stage.described.inj h
      exact ⟨rfl, rfl, Bool.eq_false_iff.mpr hnull⟩
  | advance =>
    cases a with
    | none => cases h
    | some k =>
      simp only [Stage.next] at h
      split at h <;> cases h
  | fieldName => cases h
  | stepIn => cases h
  | stepOut => cases h
  | read k => cases h

/-- A value is described by the annotations that were asked for when the cursor had arrived. -/
theorem Proper.exists_arrived (h : Proper c start past) (hs : stage c start past = .described v) :
    ∃ older, older <:+ past ∧ stage c start older = .arrived v ∧
      (∃ names, c.annotations v = .ok names) ∧ (c.view v).isNull = false := by
  cases h with
  | nil => cases hs
  | @cons ev past _ hdue =>
    rcases ev with u | ⟨q, u⟩
    · cases hdue with
      | look harrived => cases harrived.symm.trans hs
    · rcases hq : c.perform q u with ⟨e | a, s⟩
      · cases (stage_of_error hq).symm.trans hs
      · obtain ⟨rfl, rfl, hnull⟩ := Stage.eq_of_next_described ((stage_of_ok hq).symm.trans hs)
        cases hdue with
        | annotations harrived _ =>
          have hu : u = s := congrArg Prod.snd hq
          obtain rfl := hu
          exact ⟨past, List.suffix_cons _ _, harrived, ⟨a, congrArg Prod.fst hq⟩, hnull⟩

theorem Stuck.due (h : Stuck c start m v past) (hdue : Due c start past ev) :
    Stuck c start m v (ev :: past) := by
  obtain ⟨hm, hs | ⟨rfl, hs⟩⟩ := h
  · obtain rfl | ⟨rfl, hkind⟩ := hdue.of_arrived hs
    · exact ⟨hm, .inl hs⟩
    · cases m with
      | noValue => exact (hkind hm).elim
      | nullWithValue =>
        obtain ⟨names, hnames⟩ := hm.1
        have hnull : (c.view v).isNull = false := hm.2.1
        have hq : c.perform .annotations v = (.ok names, v) := congrArg (·, v) hnames
        refine ⟨hm, .inr ⟨rfl, ?_⟩⟩
        rw [stage_of_ok hq]
        simp only [Stage.next, hnull]
        rfl
  · exact (hdue.kind_of_described hs hm.2.2).elim

/-- From a misreported value on, the rest of a run stays there. -/
theorem Stuck.append {newer : List (Event σ)} (h : Stuck c start m v past)
    (hproper : Proper c start (newer ++ past)) : Stuck c start m v (newer ++ past) := by
  induction newer with
  | nil => exact h
  | cons ev newer ih =>
    cases hproper with
    | cons hproper hdue => exact (ih hproper).due hdue

theorem Stuck.stage_ne_completed (h : Stuck c start m v past) :
    Loading.stage c start past ≠ .completed s := by
  intro hs
  rcases h.stage with hs' | ⟨-, hs'⟩
  · cases hs.symm.trans hs'
  · cases hs.symm.trans hs'

/-- Whatever else could fail, where a value is misreported that is what fails. -/
theorem Stuck.eq_misreport {e : ReadError ε} (h : Stuck c start m v past)
    (hfails : Fails c start limit past e s) : e = .fault (.misreport m) := by
  obtain ⟨hm, hs | ⟨rfl, hs⟩⟩ := h
  · cases hfails with
    | cursor hs' => cases hs.symm.trans hs'
    | noValue hs' hkind =>
      obtain rfl := Stage.arrived.inj (hs.symm.trans hs')
      cases m with
      | noValue => rfl
      | nullWithValue => cases hkind.symm.trans hm.2.2
    | nullWithValue hs' _ => cases hs.symm.trans hs'
    | tooDeep hs' _ _ => cases hs.symm.trans hs'
  · cases hfails with
    | cursor hs' => cases hs.symm.trans hs'
    | noValue hs' _ => cases hs.symm.trans hs'
    | nullWithValue _ _ => rfl
    | tooDeep hs' _ hkind =>
      obtain rfl := Stage.described.inj (hs.symm.trans hs')
      cases hkind.symm.trans hm.2.2

theorem Fails.exists_misreported (h : Fails c start limit past (.fault (.misreport m)) s)
    (hproper : Proper c start past) :
    ∃ older v, older <:+ past ∧ stage c start older = .arrived v ∧ Misreports c v m := by
  cases h with
  | noValue hs hkind => exact ⟨past, s, List.suffix_refl _, hs, hkind⟩
  | nullWithValue hs hkind =>
    obtain ⟨older, hsuffix, harrived, hnames, hnull⟩ := hproper.exists_arrived hs
    exact ⟨older, s, hsuffix, harrived, hnames, hnull, hkind⟩

end

section
variable {c : Cursor σ ε} {limit : Option Nat} {fuel : Nat} {start s : σ} {o : Outcome ε Element}

/-- A run that ends finds a misreport if and only if it reaches a value that is so misreported. -/
theorem misreport_iff (hrun : (load limit fuel).run c start = (o, s)) (hend : o ≠ .unfinished)
    (m : Misreport) : o = .error (.fault (.misreport m)) ↔
      ∃ v, Reaches c start ((load limit fuel).trace c start) v ∧ Misreports c v m := by
  have hproper := proper_history c limit fuel start
  constructor
  · rintro rfl
    obtain ⟨older, v, hsuffix, harrived, hm⟩ := (fails_of_load hrun).exists_misreported hproper
    refine ⟨v, ⟨older.reverse, ?_, ?_⟩, hm⟩
    · exact List.reverse_suffix.mp (older.reverse_reverse.symm ▸ hsuffix)
    · rw [List.reverse_reverse]
      exact harrived
  · rintro ⟨v, ⟨before, ⟨after, ht⟩, harrived⟩, hm⟩
    have hhistory : history c limit fuel start = after.reverse ++ before.reverse := by
      unfold history
      rw [← ht, List.reverse_append]
    rw [hhistory] at hproper
    have hstuck := (Stuck.mk hm (.inl harrived)).append hproper
    rw [← hhistory] at hstuck
    cases o with
    | ok e => exact (hstuck.stage_ne_completed (at_of_load hrun).stage).elim
    | error e => exact congrArg Outcome.error (hstuck.eq_misreport (fails_of_load hrun))
    | unfinished => exact (hend rfl).elim

end

/-- How a run that ends may fail. A call that fails is the last one; its error is the result and
its state the final one, and the errors of the cursor arise only so. A misreport is found exactly
where a value that is so misreported is reached. A depth is refused only by the limit, and nothing
else ever fails. -/
theorem load_failure (c : Cursor σ ε) (limit : Option Nat) (fuel : Nat) (start s : σ)
    (o : Outcome ε Element) (hrun : (load limit fuel).run c start = (o, s))
    (hend : o ≠ .unfinished) :
    let t := (load limit fuel).trace c start
    (∀ before q u after e, t = before ++ .call q u :: after → (c.perform q u).1 = .error e →
        after = [] ∧ o = .error (.cursor e) ∧ s = (c.perform q u).2) ∧
      (∀ e, o = .error (.cursor e) →
        ∃ before q u, t = before ++ [.call q u] ∧ c.perform q u = (.error e, s)) ∧
      (∀ m, o = .error (.fault (.misreport m)) ↔ ∃ v, Reaches c start t v ∧ Misreports c v m) ∧
      (∀ n, o = .error (.fault (.tooDeep n)) → limit = some n) ∧
      o ≠ .error .exhausted ∧ (∀ operation, o ≠ .error (.unsupported operation)) ∧
      ∀ depth expected, o ≠ .error (.fault (.stranded depth expected)) := by
  intro t
  refine ⟨?_, ?_, misreport_iff hrun hend, ?_, ?_, ?_, ?_⟩
  · intro before q u after e ht he
    obtain ⟨hafter, hrun'⟩ := run_of_failed_call _ ht he
    obtain ⟨ho, hs⟩ := Prod.mk.inj (hrun.symm.trans hrun')
    exact ⟨hafter, ho, hs⟩
  · rintro e rfl
    exact exists_failed_call _ hrun
  · rintro n rfl
    cases fails_of_load hrun with
    | tooDeep _ hlimit _ => exact hlimit
  · rintro rfl
    cases fails_of_load hrun
  · rintro operation rfl
    cases fails_of_load hrun
  · rintro depth expected rfl
    cases fails_of_load hrun

/-- A null in a list is reached, and then found out, if the cursor denies that it is null. -/
theorem load_denied_null :
    let c : Cursor Walk WalkError :=
      { Walk.cursor with view := fun w => { w.view with isNull := false } }
    let items := [Element.ofScalar .int 1, .ofValue (.null .null), .ofScalar .int 2]
    let w : Walk := ⟨⟨.items [.ofValue (.list items)], .on 0⟩, [], .system⟩
    let found : Walk := ⟨⟨.items items, .on 1⟩, [w.top], .system⟩
    (load none 5).run c w = (.error (.fault (.misreport .nullWithValue)), found) ∧
      ∃ v, Reaches c w ((load none 5).trace c w) v ∧ Misreports c v .nullWithValue := by
  intro c items w found
  have hrun : (load none 5).run c w = (.error (.fault (.misreport .nullWithValue)), found) := rfl
  exact ⟨hrun, ((load_failure c none 5 w found _ hrun nofun).2.2.1 _).mp rfl⟩

end IonDocument.Loading
