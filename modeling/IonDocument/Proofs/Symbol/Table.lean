import IonDocument.Symbol.Table
import Mathlib.Data.List.Induction
import Mathlib.Order.Bounds.Basic

/-! # Looking up ids and texts

A table is filled one slot after another, and each slot takes the id after the highest one so far.
So all ids together are the positions of one list, and both lookups are lookups in it: that of a text
gives its first position, and that of an id what is there. A longer table has a longer list with the
same beginning. An id is also looked up in machine words, with each subtraction and each access
checked, and this comes to the same.
-/
namespace IonDocument

theorem idxOf?_append {α : Type} [BEq α] (a : α) (xs ys : List α) :
    (xs ++ ys).idxOf? a = (xs.idxOf? a).or ((ys.idxOf? a).map (· + xs.length)) :=
  List.findIdx?_append

theorem idxOf?_eq_some_iff_isLeast {α : Type} [DecidableEq α] {xs : List (Option α)} {a : α}
    {i : Nat} : xs.idxOf? (some a) = some i ↔ IsLeast {i | xs[i]?.join = some a} i := by
  simp only [List.idxOf?_eq_some_iff, IsLeast, mem_lowerBounds, Set.mem_ofPred_eq,
    Option.join_eq_some_iff, List.getElem?_eq_some_iff]
  constructor
  · rintro ⟨h, ha, hbefore⟩
    refine ⟨⟨h, ha⟩, ?_⟩
    rintro j ⟨hj, hja⟩
    by_contra hlt
    exact hbefore j (Nat.lt_of_not_le hlt) hja
  · rintro ⟨⟨h, ha⟩, hleast⟩
    refine ⟨h, ha, ?_⟩
    intro j hlt hja
    exact Nat.not_le.mpr hlt (hleast j ⟨hlt.trans h, hja⟩)

namespace Table
variable {locals more : List (Option String)} {text : String} {i : Nat}

theorem getElem?_note (ids : Std.TreeMap String Nat) (slot : Option String) (id : Nat)
    (text : String) :
    (note ids (slot, id))[text]? =
      if slot = some text ∧ systemId? text = none then ids[text]?.or (some id) else ids[text]? := by
  cases slot with
  | none => rfl
  | some found =>
    by_cases hsystem : systemId? found = none
    · simp only [note, hsystem, Option.isSome_none, Bool.false_eq_true, if_false,
        Std.TreeMap.getElem?_insertIfNew, Std.LawfulEqCmp.compare_eq_iff_eq]
      by_cases hfound : found = text
      · subst hfound
        cases hold : ids[found]? with
        | none => simp [hsystem, Std.TreeMap.mem_iff_isSome_getElem?, hold]
        | some old => simp [Std.TreeMap.mem_iff_isSome_getElem?, hold]
      · simp [hfound]
    · have hne : ¬(found = text ∧ systemId? text = none) := by
        rintro ⟨rfl, hnone⟩
        exact hsystem hnone
      simp [note, Option.isSome_iff_ne_none.mpr hsystem, hne]

theorem idsOf_concat (locals : List (Option String)) (slot : Option String) :
    idsOf (locals ++ [slot]) = note (idsOf locals) (slot, firstLocalId + locals.length) := by
  simp [idsOf, List.zipIdx_append]

/-- What the loop over the local slots keeps: it has noted the first slot of each text that is not a
system text. -/
theorem getElem?_idsOf (locals : List (Option String)) (text : String) :
    (idsOf locals)[text]? = if systemId? text = none
      then (locals.idxOf? (some text)).map (· + firstLocalId) else none := by
  -- The loop goes on at the end of the list, so the induction is from the right.
  induction locals using List.reverseRecOn with
  | nil => simp [idsOf]
  | append_singleton locals slot ih =>
    rw [idsOf_concat, getElem?_note, ih, idxOf?_append]
    by_cases hsystem : systemId? text = none
    · by_cases hslot : slot = some text
      · cases locals.idxOf? (some text) <;> simp [hsystem, hslot, List.idxOf?_cons, Nat.add_comm]
      · simp [hsystem, hslot, List.idxOf?_cons]
    · simp [hsystem]

/-- Takes up one more slot, with the id after the highest one. -/
def push (t : Table) (slot : Option String) : Table :=
  ⟨t.locals.push slot, note t.ids (slot, t.maxId + 1), by
    rw [Array.toList_push, idsOf_concat, ← t.ids_eq, Array.length_toList, maxId, firstLocalId,
      Nat.add_right_comm]⟩

theorem ofLocals_concat (locals : List (Option String)) (slot : Option String) :
    ofLocals (locals ++ [slot]) = (ofLocals locals).push slot := by
  apply eq_of_locals_eq
  simp [push]

theorem ofLocals_eq_foldl (locals : List (Option String)) :
    ofLocals locals = locals.foldl push system := by
  induction locals using List.reverseRecOn with
  | nil => rfl
  | append_singleton locals slot ih =>
    rw [ofLocals_concat, ih, List.foldl_append]
    rfl

/-- What each id stands for, from id 0 on. -/
def slots (locals : List (Option String)) : List (Option String) :=
  none :: (systemSymbols.map some ++ locals)

theorem slots_append (locals more : List (Option String)) :
    slots (locals ++ more) = slots locals ++ more := by
  simp [slots]

theorem length_slots (locals : List (Option String)) :
    (slots locals).length = (ofLocals locals).maxId + 1 := by
  simp [slots, maxId]

theorem text?_ofLocals (locals : List (Option String)) (i : Nat) :
    (ofLocals locals).text? i = (slots locals)[i]?.join := by
  cases i with
  | zero => rfl
  | succ i =>
    rw [slots, List.getElem?_cons_succ, List.getElem?_append, List.length_map, text?]
    split
    · next hi => simp [hi]
    · simp

theorem id?_ofLocals (locals : List (Option String)) (text : String) :
    (ofLocals locals).id? text = (slots locals).idxOf? (some text) := by
  have hsystem : (systemSymbols.map some).idxOf? (some text) = systemSymbols.idxOf? text := by
    rw [List.idxOf?, List.findIdx?_map]
    rfl
  rw [slots, List.idxOf?_cons, idxOf?_append, hsystem, List.length_map, id?, ofLocals, getElem?_idsOf,
    systemId?]
  cases systemSymbols.idxOf? text with
  | none => simp [firstLocalId, Function.comp_def, Nat.add_assoc]
  | some i => simp

theorem id?_eq_some_iff {s : Nat} : (ofLocals locals).id? text = some s ↔
    IsLeast {i | (ofLocals locals).text? i = some text} s := by
  simp only [id?_ofLocals, text?_ofLocals]
  exact idxOf?_eq_some_iff_isLeast

theorem id?_eq_none_iff : (ofLocals locals).id? text = none ↔
    ∀ i, (ofLocals locals).text? i ≠ some text := by
  simp [id?_ofLocals, text?_ofLocals, List.mem_iff_getElem?, Option.join_eq_some_iff]

theorem text?_system (t : Table) (h : i < systemSymbols.length) :
    t.text? (1 + i) = some (systemSymbols.get ⟨i, h⟩) := by
  rw [Nat.add_comm, text?, if_pos h, List.get_eq_getElem, List.getElem?_eq_getElem]

theorem text?_local (h : i < locals.length) :
    (ofLocals locals).text? (firstLocalId + i) = locals.get ⟨i, h⟩ := by
  have hindex : firstLocalId + i = systemSymbols.length + i + 1 := Nat.add_right_comm _ _ _
  rw [hindex, text?, if_neg (Nat.not_lt.mpr (Nat.le_add_right _ _)), Nat.add_sub_cancel_left]
  simp [h]

theorem text?_of_maxId_lt (h : (ofLocals locals).maxId < i) : (ofLocals locals).text? i = none := by
  rw [text?_ofLocals, List.getElem?_eq_none]
  · rfl
  · rw [length_slots]
    exact h

theorem text?_append (h : (ofLocals locals).text? i = some text) :
    (ofLocals (locals ++ more)).text? i = some text := by
  rw [text?_ofLocals, Option.join_eq_some_iff] at h ⊢
  rw [slots_append, List.getElem?_append_left (List.getElem?_eq_some_iff.mp h).1, h]

theorem id?_append {s : Nat} (h : (ofLocals locals).id? text = some s) :
    (ofLocals (locals ++ more)).id? text = some s := by
  rw [id?_ofLocals] at h ⊢
  rw [slots_append, idxOf?_append, h, Option.some_or]

theorem textOf?_append {token : Token} (h : (ofLocals locals).textOf? token = some text) :
    (ofLocals (locals ++ more)).textOf? token = some text := by
  rcases token with ⟨own | own, id⟩
  · obtain ⟨i, hid, htext⟩ := Option.bind_eq_some_iff.mp h
    exact Option.bind_eq_some_iff.mpr ⟨i, hid, text?_append htext⟩
  · exact h

/-- Subtraction of machine words, unless the result would be below zero. -/
def checkedSub (a b : USize) : Option USize := if b ≤ a then some (a - b) else none

theorem lt_of_checkedSub {a b : USize} (h : checkedSub a b = none) : a.toNat < b.toNat := by
  by_contra hle
  have hba : b ≤ a := USize.le_iff_toNat_le.mpr (Nat.le_of_not_lt hle)
  simp [checkedSub, hba] at h

theorem toNat_of_checkedSub {a b c : USize} (h : checkedSub a b = some c) :
    a.toNat = c.toNat + b.toNat := by
  obtain ⟨hba, hc⟩ := Option.ite_none_right_eq_some.mp h
  obtain rfl := Option.some.inj hc
  rw [USize.toNat_sub_of_le a b hba, Nat.sub_add_cancel (USize.le_iff_toNat_le.mp hba)]

/-- An access to the system symbols that is out of bounds. -/
structure NoSystemSymbol where
  index : USize

/-- The text of an id in machine words. -/
def textAt (t : Table) (id : USize) : Except NoSystemSymbol (Option String) :=
  match checkedSub id 1 with
  | none => .ok none
  | some index =>
    match checkedSub index (.ofNat systemSymbols.length) with
    | some index => .ok (t.locals[index.toNat]?).join
    | none =>
      match systemSymbols[index.toNat]? with
      | some text => .ok (some text)
      | none => .error ⟨index⟩

theorem textAt_eq (t : Table) (id : USize) : t.textAt id = .ok (t.text? id.toNat) := by
  have hlength : (USize.ofNat systemSymbols.length).toNat = systemSymbols.length :=
    USize.toNat_ofNat_of_lt_32 (by decide)
  cases hid : checkedSub id 1 with
  | none =>
    have hzero := lt_of_checkedSub hid
    rw [USize.toNat_one, Nat.lt_one_iff] at hzero
    rw [hzero]
    simp [textAt, hid, text?]
  | some index =>
    rw [toNat_of_checkedSub hid, USize.toNat_one]
    cases hindex : checkedSub index (.ofNat systemSymbols.length) with
    | none =>
      have hlt : index.toNat < systemSymbols.length := hlength ▸ lt_of_checkedSub hindex
      simp [textAt, hid, hindex, text?, hlt]
    | some offset =>
      have hadd := toNat_of_checkedSub hindex
      rw [hlength] at hadd
      simp [textAt, hid, hindex, text?, hadd]

/-- Both lookups, for all local slots. They are inverse to each other, with the lowest id of each text,
and more slots leave every answer that there was. -/
theorem lookups_inverse (locals : List (Option String)) :
    let t : Table := ofLocals locals
    t = locals.foldl push system ∧ t.maxId = 9 + locals.length ∧
      (∀ text id, t.id? text = some id ↔ IsLeast {i | t.text? i = some text} id) ∧
      (∀ text, t.id? text = none ↔ ∀ i, t.text? i ≠ some text) ∧
      (∀ id, t.textAt id = .ok (t.text? id.toNat)) ∧
      t.text? 0 = none ∧
      (∀ i (h : i < 9), t.text? (1 + i) = some (systemSymbols.get ⟨i, h⟩)) ∧
      (∀ i (h : i < locals.length), t.text? (10 + i) = locals.get ⟨i, h⟩) ∧
      (∀ i, t.maxId < i → t.text? i = none) ∧
      (∀ text id, t.id? text = some id → t.textOf? (.numbered id) = some text) ∧
      ∀ more,
        (∀ text id, t.id? text = some id → (ofLocals (locals ++ more)).id? text = some id) ∧
        (∀ i text, t.text? i = some text → (ofLocals (locals ++ more)).text? i = some text) ∧
        ∀ token text, t.textOf? token = some text →
          (ofLocals (locals ++ more)).textOf? token = some text := by
  intro t
  refine ⟨ofLocals_eq_foldl locals, maxId_ofLocals locals, fun text id => id?_eq_some_iff,
    fun text => id?_eq_none_iff, textAt_eq t, rfl, fun i h => text?_system t h,
    fun i h => text?_local h, fun i => text?_of_maxId_lt, ?_, ?_⟩
  · intro text id h
    exact (id?_eq_some_iff.mp h).1
  · intro more
    exact ⟨fun text id => id?_append, fun i text => text?_append, fun token text => textOf?_append⟩

/-- One text twice, a slot without text, and a copy of a system text. -/
theorem lookups_with_copies :
    let locals := [some "a", none, some "name", some "a"]
    let t := ofLocals locals
    let longer := ofLocals (locals ++ [some "b", some "name"])
    t.id? "a" = some 10 ∧ IsLeast {i | t.text? i = some "a"} 10 ∧
      t.id? "name" = some 4 ∧ (∀ i, t.text? i ≠ some "b") ∧
      t.text? (1 + 3) = some "name" ∧ t.text? (10 + 2) = some "name" ∧ t.text? (10 + 1) = none ∧
      t.text? 14 = none ∧ t.textOf? (.numbered 10) = some "a" ∧ longer.id? "a" = some 10 ∧
      longer.text? 13 = some "a" ∧ longer.textOf? (.numbered 10) = some "a" := by
  intro locals t longer
  obtain ⟨-, -, hid, hnone, -, -, hsystem, hlocal, hpast, htext, hmore⟩ := lookups_inverse locals
  obtain ⟨hids, htexts, htokens⟩ := hmore [some "b", some "name"]
  have ha : t.id? "a" = some 10 := by decide
  have hname : t.id? "name" = some 4 := by decide
  have hb : t.id? "b" = none := by decide
  exact ⟨ha, (hid "a" 10).mp ha, hname, (hnone "b").mp hb, hsystem 3 (by decide),
    hlocal 2 (by decide), hlocal 1 (by decide), hpast 14 (by decide), htext "a" 10 ha,
    hids "a" 10 ha, htexts 13 "a" (by decide), htokens (.numbered 10) "a" (htext "a" 10 ha)⟩

end Table
end IonDocument
