/-! # Where a piece of text is over

Two texts that begin with pieces of one kind begin with the same piece, provided that a piece tells
where it is over: because what comes after it cannot belong to it, or because no piece of the kind
begins another one.
-/
namespace IonDocument.Text
variable {p : Char → Bool} {c : Char} {xs ys r s : List Char}

/-- A text that is over, or goes on with a character outside of `p`. -/
def Leaves (p : Char → Bool) : List Char → Prop
  | [] => True
  | c :: _ => p c = false

theorem leaves_nil (p : Char → Bool) : Leaves p [] := trivial

theorem leaves_cons (h : p c = false) : Leaves p (c :: r) := h

theorem Leaves.mono {q : Char → Bool} (h : Leaves p r) (hpq : ∀ c, p c = false → q c = false) :
    Leaves q r := by
  cases r with
  | nil => trivial
  | cons c r => exact hpq c h

/-- A text that begins with a character in `p`. -/
def Begins (p : Char → Bool) (cs : List Char) : Prop := ∃ c r, cs = c :: r ∧ p c = true

theorem begins_cons (h : p c = true) : Begins p (c :: r) := ⟨c, r, rfl, h⟩

theorem begins_of_forall_mem (hx : ∀ c ∈ xs, p c = true) (h : xs ≠ []) : Begins p xs := by
  cases xs with
  | nil => exact absurd rfl h
  | cons c xs => exact begins_cons (hx c List.mem_cons_self)

theorem Begins.append (h : Begins p xs) (r : List Char) : Begins p (xs ++ r) := by
  obtain ⟨c, xs, rfl, hc⟩ := h
  exact begins_cons hc

theorem Begins.mono {q : Char → Bool} (h : Begins p xs) (hpq : ∀ c, p c = true → q c = true) :
    Begins q xs := by
  obtain ⟨c, xs, rfl, hc⟩ := h
  exact begins_cons (hpq c hc)

theorem Begins.leaves {q : Char → Bool} (h : Begins p xs)
    (hpq : ∀ c, p c = true → q c = false) : Leaves q xs := by
  obtain ⟨c, xs, rfl, hc⟩ := h
  exact leaves_cons (hpq c hc)

theorem Begins.append_ne (h : Begins p xs) (hc : p c = false) : xs ++ r ≠ c :: s := by
  obtain ⟨d, xs, rfl, hd⟩ := h
  intro heq
  rw [(List.cons.inj heq).1, hc] at hd
  cases hd

theorem not_mem_of_forall (hx : ∀ c ∈ xs, p c = true) (hc : p c = false) : c ∉ xs := by
  intro h
  rw [hx c h] at hc
  cases hc

/-- A class of characters that has none of some marks. -/
theorem not_contains_of {marks : List Char} (hp : marks.any p = false) (hc : p c = true) :
    (!marks.contains c) = true := by
  rw [Bool.not_eq_true', ← Bool.not_eq_true, List.contains_iff_mem]
  intro h
  rw [List.any_eq_false] at hp
  exact hp c h hc

theorem takeWhile_append (hx : ∀ c ∈ xs, p c) (hr : Leaves p r) : (xs ++ r).takeWhile p = xs := by
  rw [List.takeWhile_append_of_pos hx]
  cases r with
  | nil => simp
  | cons c r =>
    have hc : p c = false := hr
    simp [hc]

/-- What is read up to a character outside of `p`, and what is left. -/
theorem append_inj (hx : ∀ c ∈ xs, p c) (hy : ∀ c ∈ ys, p c) (hr : Leaves p r) (hs : Leaves p s)
    (h : xs ++ r = ys ++ s) : xs = ys ∧ r = s := by
  have hxy : xs = ys := by
    rw [← takeWhile_append hx hr, ← takeWhile_append hy hs, h]
  subst hxy
  exact ⟨rfl, List.append_cancel_left h⟩

/-- As before, with a character that ends both texts. -/
theorem append_cons_inj (hx : ∀ c ∈ xs, p c) (hy : ∀ c ∈ ys, p c) (hc : p c = false)
    (h : xs ++ c :: r = ys ++ c :: s) : xs = ys ∧ r = s := by
  obtain ⟨hxy, hrs⟩ := append_inj hx hy (leaves_cons hc) (leaves_cons hc) h
  exact ⟨hxy, (List.cons.inj hrs).2⟩

/-- A sequence of pieces, of which none begins another one and none begins like the end. -/
theorem flatMap_append_inj {α : Type} {f : α → List Char}
    (hf : ∀ a b r s, f a ++ r = f b ++ s → a = b ∧ r = s) (hc : ∀ a r s, f a ++ r ≠ c :: s)
    {as bs : List α} (h : as.flatMap f ++ c :: r = bs.flatMap f ++ c :: s) : as = bs ∧ r = s := by
  induction as generalizing bs with
  | nil =>
    cases bs with
    | nil => exact ⟨rfl, (List.cons.inj h).2⟩
    | cons b bs =>
      rw [List.flatMap_cons, List.append_assoc] at h
      exact absurd h.symm (hc b _ _)
  | cons a as ih =>
    rw [List.flatMap_cons, List.append_assoc] at h
    cases bs with
    | nil => exact absurd h (hc a _ _)
    | cons b bs =>
      rw [List.flatMap_cons, List.append_assoc] at h
      obtain ⟨hab, hrest⟩ := hf a b _ _ h
      obtain ⟨has, hrs⟩ := ih hrest
      exact ⟨congr (congrArg List.cons hab) has, hrs⟩

end IonDocument.Text
