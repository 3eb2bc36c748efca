import IonDocument.Proofs.Symbol.Table

/-! # When two tables are the same

Equality compares the slots and the ids by text. The ids by text follow from the slots, and the slots
are all that a lookup by id can see, together with how many there are. So tables are the same where no
lookup tells them apart and they end at the same id. Slots without text at the end change no lookup by
id, but only the highest id.
-/
namespace IonDocument.Table
variable {locals more : List (Option String)}

theorem same_iff_eq {a b : Table} : a.same b = true ↔ a = b := by
  rw [same, Bool.and_eq_true, beq_iff_eq]
  constructor
  · rintro ⟨hlocals, -⟩
    exact eq_of_locals_eq hlocals
  · rintro rfl
    exact ⟨rfl, Std.TreeMap.Equiv.beq .rfl⟩

/-- The ids by text have no say. -/
theorem same_eq_beq_locals (a b : Table) : a.same b = (a.locals == b.locals) := by
  rw [Bool.eq_iff_iff, same_iff_eq, beq_iff_eq]
  exact ⟨congrArg locals, eq_of_locals_eq⟩

theorem slots_inj (h : slots locals = slots more) : locals = more :=
  List.append_cancel_left (List.cons.inj h).2

/-- Up to the highest id the texts tell what is in every slot. -/
theorem slots_eq_of_text? (hmax : (ofLocals locals).maxId = (ofLocals more).maxId)
    (htext : ∀ i ≤ (ofLocals locals).maxId, (ofLocals locals).text? i = (ofLocals more).text? i) :
    slots locals = slots more := by
  apply List.ext_getElem
  · rw [length_slots, length_slots, hmax]
  · intro i hi hi'
    rw [length_slots] at hi
    have h := htext i (Nat.le_of_lt_succ hi)
    rw [text?_ofLocals, text?_ofLocals, List.getElem?_eq_getElem, List.getElem?_eq_getElem hi'] at h
    exact h

theorem ofLocals_eq_of_text? (hmax : (ofLocals locals).maxId = (ofLocals more).maxId)
    (htext : ∀ i ≤ (ofLocals locals).maxId, (ofLocals locals).text? i = (ofLocals more).text? i) :
    ofLocals locals = ofLocals more :=
  congrArg ofLocals (slots_inj (slots_eq_of_text? hmax htext))

theorem same_ofLocals_iff : (ofLocals locals).same (ofLocals more) = true ↔
    (ofLocals locals).maxId = (ofLocals more).maxId ∧
      ∀ i, (ofLocals locals).text? i = (ofLocals more).text? i := by
  rw [same_iff_eq]
  constructor
  · intro h
    rw [h]
    exact ⟨rfl, fun _ => rfl⟩
  · rintro ⟨hmax, htext⟩
    exact ofLocals_eq_of_text? hmax fun i _ => htext i

/-- As before, with the ids that are machine words, as long as these reach to the end of the table. -/
theorem same_ofLocals_iff_textAt (hsize : (ofLocals locals).maxId < USize.size) :
    (ofLocals locals).same (ofLocals more) = true ↔
      (ofLocals locals).maxId = (ofLocals more).maxId ∧
        ∀ id, (ofLocals locals).textAt id = (ofLocals more).textAt id := by
  rw [same_iff_eq]
  constructor
  · intro h
    rw [h]
    exact ⟨rfl, fun _ => rfl⟩
  · rintro ⟨hmax, htext⟩
    apply ofLocals_eq_of_text? hmax
    intro i hi
    have hword : (USize.ofNat i).toNat = i := USize.toNat_ofNat_of_lt' (Nat.lt_of_le_of_lt hi hsize)
    have h := htext (.ofNat i)
    rw [textAt_eq, textAt_eq, hword] at h
    exact Except.ok.inj h

/-- Slots without text at the end give no text to any id. -/
theorem text?_append_replicate_none (locals : List (Option String)) (n i : Nat) :
    (ofLocals (locals ++ List.replicate n none)).text? i = (ofLocals locals).text? i := by
  rw [text?_ofLocals, text?_ofLocals, slots_append, List.getElem?_append]
  split
  · rfl
  · next hi =>
    rw [List.getElem?_eq_none (Nat.le_of_not_lt hi), List.getElem?_replicate]
    split <;> rfl

theorem same_append_replicate_none_iff (locals : List (Option String)) (m n : Nat) :
    (ofLocals (locals ++ List.replicate m none)).same (ofLocals (locals ++ List.replicate n none))
      = true ↔ m = n := by
  rw [same_iff_eq]
  constructor
  · intro h
    have hmax := congrArg maxId h
    simp only [maxId_ofLocals, List.length_append, List.length_replicate] at hmax
    omega
  · rintro rfl
    rfl

/-- Two tables, filled slot by slot, are the same where they end at one id and every id has one text in
both; then nothing else tells them apart either. The ids by text have no say in this, and slots without
text at the end are told by their number alone. -/
theorem same_iff_no_lookup_differs (locals more : List (Option String)) :
    let a : Table := ofLocals locals
    let b : Table := ofLocals more
    let filled := fun n => ofLocals (locals ++ List.replicate n none)
    a = locals.foldl push system ∧ b = more.foldl push default ∧
      (a.same b = true ↔ a.maxId = b.maxId ∧ ∀ i, a.text? i = b.text? i) ∧
      (a.maxId < USize.size →
        (a.same b = true ↔ a.maxId = b.maxId ∧ ∀ id, a.textAt id = b.textAt id)) ∧
      (a.same b = true →
        (∀ text, a.id? text = b.id? text) ∧ ∀ token, a.textOf? token = b.textOf? token) ∧
      a.same b = (a.locals == b.locals) ∧
      ∀ m n, (∀ i, (filled m).text? i = (filled n).text? i) ∧
        ((filled m).same (filled n) = true ↔ m = n) := by
  intro a b filled
  refine ⟨ofLocals_eq_foldl locals, ofLocals_eq_foldl more, same_ofLocals_iff,
    same_ofLocals_iff_textAt, ?_, same_eq_beq_locals a b, ?_⟩
  · intro h
    rw [same_iff_eq.mp h]
    exact ⟨fun _ => rfl, fun _ => rfl⟩
  · intro m n
    refine ⟨?_, same_append_replicate_none_iff locals m n⟩
    intro i
    rw [text?_append_replicate_none, text?_append_replicate_none]

/-- One text twice, a slot without text, and a copy of a system text. -/
theorem same_with_copies :
    let locals := [some "a", none, some "name", some "a"]
    let a := ofLocals locals
    let b := locals.foldl push system
    a.same b = true ∧ a.maxId < USize.size ∧ (∀ id, a.textAt id = b.textAt id) ∧
      (∀ text, a.id? text = b.id? text) ∧ (∀ token, a.textOf? token = b.textOf? token) ∧
      (ofLocals (locals ++ [none])).same a = false := by
  intro locals a b
  obtain ⟨hfold, -, -, hwords, hlookups, -, hfilled⟩ := same_iff_no_lookup_differs locals locals
  have hsame : a.same a = true := by decide
  have hsize : a.maxId < USize.size := Nat.lt_of_lt_of_le (by decide) USize.le_size
  have hlonger : (ofLocals (locals ++ [none])).same a = false :=
    Bool.eq_false_iff.mpr (mt (hfilled 1 0).2.mp (by decide))
  have hb : b = a := hfold.symm
  rw [hb]
  exact ⟨hsame, hsize, ((hwords hsize).mp hsame).2, (hlookups hsame).1, (hlookups hsame).2, hlonger⟩

end IonDocument.Table
