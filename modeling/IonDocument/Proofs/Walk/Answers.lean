import IonDocument.Proofs.Cursor.Counting
import IonDocument.Proofs.Element.Calls
import IonDocument.Proofs.Walk.Nesting

/-! # What a walk answers, and what it refuses

A call is refused for the first of these reasons that applies: there is no value, the value is a null,
or its kind does not fit. A read that is not refused gives the payload that the accessor of the
element gives. So of all calls that use up a value, a value that is not null answers one and a null
answers none. A refused call changes nothing, and neither does a read.
-/
namespace IonDocument

namespace Element
variable {e : Element} {k : ScalarKind}

/-- The accessor for payloads of a kind. Blobs and clobs have the same one. -/
def accessor (e : Element) : (k : ScalarKind) → Option k.Payload
  | .blob => e.bytes?
  | .clob => e.bytes?
  | k => e.scalar? k

theorem isNull_of_value {kind : Kind} (h : e.value = .null kind) :
    e.isNull = true ∧ e.kind = kind := by
  rw [isNull, Element.kind, h]
  exact ⟨rfl, rfl⟩

theorem scalar?_of_misfit (h : e.isNull = true ∨ e.kind ≠ .scalar k) : e.scalar? k = none := by
  rcases e with ⟨as, v, t⟩
  cases v with
  | scalar x =>
    rcases h with hnull | hkind
    · cases hnull
    · exact Scalar.payload?_of_ne fun hx => hkind (congrArg Kind.scalar hx)
  | _ => rfl

theorem exists_payload (hnull : e.isNull = false) (hkind : e.kind = .scalar k) :
    ∃ p, e.scalar? k = some p ∧ e.accessor k = some p := by
  rcases e with ⟨as, v, t⟩
  cases v with
  | null => cases hnull
  | scalar x =>
    rcases x with ⟨found, p⟩
    obtain rfl : found = k := Kind.scalar.inj hkind
    refine ⟨p, Scalar.payload?_self found p, ?_⟩
    cases found <;> rfl
  | _ => cases hkind

theorem isSome_children? (e : Element) :
    e.children?.isSome = (!e.isNull && e.kind.isContainer) := by
  rcases e with ⟨as, v, t⟩
  cases v <;> rfl

theorem read_mem_opening_iff : .read k ∈ e.value.opening ↔ (e.scalar? k).isSome = true := by
  rcases e with ⟨as, v, t⟩
  cases v with
  | scalar x =>
    rcases x with ⟨found, p⟩
    by_cases hk : found = k
    · subst hk
      simp [Value.opening, scalar?]
    · have hne : Scalar.payload? ⟨found, p⟩ k = none := Scalar.payload?_of_ne hk
      simp [Value.opening, scalar?, hne, Ne.symm hk]
  | _ => simp [Value.opening, scalar?]

theorem stepIn_mem_opening_iff : .stepIn ∈ e.value.opening ↔ e.children?.isSome = true := by
  rcases e with ⟨as, v, t⟩
  cases v <;> simp [Value.opening, children?, Value.children?]

/-- Of the calls that use up a value, one fits a value that is not null. -/
theorem exists_opening (h : e.isNull = false) : ∃ q, q.isUse = true ∧ e.value.opening = [q] := by
  rcases e with ⟨as, v, t⟩
  cases v with
  | null => cases h
  | scalar x => exact ⟨.read x.kind, rfl, rfl⟩
  | _ => exact ⟨.stepIn, rfl, rfl⟩

theorem opening_of_isNull (h : e.isNull = true) : e.value.opening = [] := by
  rcases e with ⟨as, v, t⟩
  cases v with
  | null => rfl
  | _ => cases h

end Element

namespace Walk
variable {w : Walk} {e : Element} {k : ScalarKind}

/-- The answers to a read of a kind. -/
structure Reads (w : Walk) (k : ScalarKind) : Prop where
  nowhere : w.current? = none → (w.read k).1 = .error .noValue
  null : ∀ e kind, w.current? = some e → e.value = .null kind → (w.read k).1 = .error (.isNull kind)
  misfit : ∀ e, w.current? = some e → e.isNull = false → e.kind ≠ .scalar k →
    (w.read k).1 = .error (.wrongKind k e.kind)
  fit : ∀ e, w.current? = some e → e.isNull = false → e.kind = .scalar k →
    ∃ p, e.accessor k = some p ∧ (w.read k).1 = .ok p

/-- The answers to a step in. -/
structure StepsIn (w : Walk) : Prop where
  nowhere : w.current? = none → w.stepIn.1 = .error .noValue
  null : ∀ e kind, w.current? = some e → e.value = .null kind → w.stepIn.1 = .error (.isNull kind)
  misfit : ∀ e, w.current? = some e → e.isNull = false → e.kind.isContainer = false →
    w.stepIn.1 = .error (.noContainer e.kind)
  fit : ∀ e, w.current? = some e → e.isNull = false → e.kind.isContainer = true →
    w.stepIn.1 = .ok ()

theorem reads (w : Walk) (k : ScalarKind) : w.Reads k where
  nowhere he := by simp [read, he]
  null e kind he hvalue := by
    obtain ⟨hnull, hkind⟩ := Element.isNull_of_value hvalue
    simp [read, he, Element.scalar?_of_misfit (.inl hnull), hnull, hkind]
  misfit e he hnull hkind := by
    simp [read, he, Element.scalar?_of_misfit (.inr hkind), hnull]
  fit e he hnull hkind := by
    obtain ⟨p, hp, haccessor⟩ := Element.exists_payload hnull hkind
    exact ⟨p, haccessor, by simp [read, he, hp]⟩

theorem stepsIn (w : Walk) : w.StepsIn where
  nowhere he := by simp [stepIn, he]
  null e kind he hvalue := by
    obtain ⟨hnull, hkind⟩ := Element.isNull_of_value hvalue
    have hchildren : e.children? = none := by
      simpa [hnull] using e.isSome_children?
    simp [stepIn, he, hchildren, hnull, hkind]
  misfit e he hnull hkind := by
    have hchildren : e.children? = none := by
      simpa [hkind] using e.isSome_children?
    simp [stepIn, he, hchildren, hnull]
  fit e he hnull hkind := by
    obtain ⟨children, hchildren⟩ : ∃ children, e.children? = some children := by
      rw [← Option.isSome_iff_exists, e.isSome_children?, hnull, hkind]
      rfl
    rw [stepIn_of_children he hchildren]

theorem stepOut_isOk_iff (w : Walk) : w.stepOut.1.isOk = true ↔ 0 < w.view.depth := by
  cases houter : w.outer with
  | nil => simp [stepOut, view, houter, Except.isOk, Except.toBool]
  | cons level outer => simp [stepOut, view, houter, Except.isOk, Except.toBool]

theorem stepOut_of_depth_zero (h : w.view.depth = 0) : w.stepOut.1 = .error .outermost := by
  have houter : w.outer = [] := List.eq_nil_of_length_eq_zero h
  simp [stepOut, houter]

/-- The calls that use up a value are answered on just those values that they fit. -/
theorem isOk_use_iff {q : Call} (hq : q.isUse = true) : (cursor.perform q w).1.isOk = true ↔
    ∃ e, w.current? = some e ∧ q ∈ e.value.opening := by
  cases q with
  | read k =>
    change (w.read k).1.isOk = true ↔ _
    cases he : w.current? with
    | none => simp [read, he, Except.isOk, Except.toBool]
    | some e =>
      simp only [Option.some.injEq, exists_eq_left', Element.read_mem_opening_iff]
      cases hp : e.scalar? k <;> simp [read, he, hp, Except.isOk, Except.toBool]
  | stepIn =>
    change w.stepIn.1.isOk = true ↔ _
    cases he : w.current? with
    | none => simp [stepIn, he, Except.isOk, Except.toBool]
    | some e =>
      simp only [Option.some.injEq, exists_eq_left', Element.stepIn_mem_opening_iff]
      cases hchildren : e.children? <;> simp [stepIn, he, hchildren, Except.isOk, Except.toBool]
  | _ => cases hq

theorem existsUnique_use (he : w.current? = some e) (hnull : e.isNull = false) :
    ∃! q : Call, q.isUse = true ∧ (cursor.perform q w).1.isOk = true := by
  obtain ⟨q, hq, hopening⟩ := Element.exists_opening hnull
  have hiff {q' : Call} (hq' : q'.isUse = true) :
      (cursor.perform q' w).1.isOk = true ↔ q' = q := by
    rw [isOk_use_iff hq', he]
    simp [hopening]
  refine ⟨q, ⟨hq, (hiff hq).mpr rfl⟩, ?_⟩
  rintro q' ⟨hq', hok⟩
  exact (hiff hq').mp hok

theorem not_isOk_use (hnull : ∀ e, w.current? = some e → e.isNull = true) {q : Call}
    (hq : q.isUse = true) : (cursor.perform q w).1.isOk = false := by
  rw [Bool.eq_false_iff, ne_eq, isOk_use_iff hq]
  rintro ⟨e, he, hmem⟩
  rw [Element.opening_of_isNull (hnull e he)] at hmem
  cases hmem

/-- A walk changes only with a move that is answered. -/
theorem perform_of_spare {q : Call} (h : q.isMove = false ∨ (cursor.perform q w).1.isOk = false) :
    (cursor.perform q w).2 = w := by
  rcases w.perform_moves q with ⟨hmove, hok, -⟩ | ⟨-, hstay⟩
  · rw [hmove, hok] at h
    rcases h with h | h <;> cases h
  · exact hstay

/-- What each call is answered with, or refused for. One call that uses up a value is answered where
there is a value that is not null, and elsewhere none. Reads, queries and refused calls leave a walk
as it is, so that wherever they are put in between other calls, these are answered alike. -/
theorem calls_answer_or_leave (w : Walk) :
    (∀ k, w.Reads k) ∧ w.StepsIn ∧
      (w.stepOut.1.isOk = true ↔ 0 < w.view.depth) ∧
      (w.view.depth = 0 → w.stepOut.1 = .error .outermost) ∧
      (∀ e, w.current? = some e → e.isNull = false →
        ∃! q : Call, q.isUse = true ∧ (cursor.perform q w).1.isOk = true) ∧
      ((∀ e, w.current? = some e → e.isNull = true) →
        ∀ q : Call, q.isUse = true → (cursor.perform q w).1.isOk = false) ∧
      (∀ q : Call, q.isMove = false ∨ (cursor.perform q w).1.isOk = false →
        (cursor.perform q w).2 = w) ∧
      ∀ calls, cursor.MarksSpare calls w →
        cursor.unmarkedAnswers calls w = cursor.answers (Cursor.unmarked calls) w ∧
          cursor.after (calls.map Prod.fst) w = cursor.after (Cursor.unmarked calls) w := by
  refine ⟨w.reads, w.stepsIn, w.stepOut_isOk_iff, stepOut_of_depth_zero, ?_, ?_, ?_, ?_⟩
  · intro e he hnull
    exact existsUnique_use he hnull
  · intro hnull q hq
    exact not_isOk_use hnull hq
  · intro q h
    exact perform_of_spare h
  · intro calls h
    exact Cursor.unmarkedAnswers_eq (fun q s hq => perform_of_spare hq) h

/-- Before a struct, then on a string inside it, with two reads, a step in and a step out put in
between other calls, and then on a null list. -/
theorem calls_answer_in_struct :
    let list := Element.ofValue (.null (.container .list))
    let fields : Fields := [(.named "a", .ofScalar .string "b"), (.named "c", list)]
    let outside := start [.ofValue (.struct fields)] .system
    let w := cursor.after [.advance, .stepIn, .advance] outside
    let calls : List (Call × Bool) := [(.read .blob, true), (.stepIn, true), (.read .string, false),
      (.advance, false), (.read .string, true), (.stepOut, false), (.stepOut, true)]
    (outside.read .string).1 = .error .noValue ∧ outside.stepOut.1 = .error .outermost ∧
      w.current? = some (.ofScalar .string "b") ∧ (w.read .string).1 = .ok "b" ∧
      (w.read .blob).1 = .error (.wrongKind .blob (.scalar .string)) ∧
      w.stepIn.1 = .error (.noContainer (.scalar .string)) ∧
      (∃! q : Call, q.isUse = true ∧ (cursor.perform q w).1.isOk = true) ∧
      (w.advance.2.read .string).1 = .error (.isNull (.container .list)) ∧
      (∀ q : Call, q.isUse = true → (cursor.perform q w.advance.2).1.isOk = false) ∧
      (cursor.perform .stepIn w).2 = w ∧
      cursor.MarksSpare calls w ∧
      cursor.unmarkedAnswers calls w = cursor.answers [.read .string, .advance, .stepOut] w := by
  intro list fields outside w calls
  obtain ⟨hbefore, -, -, hout, -⟩ := calls_answer_or_leave outside
  obtain ⟨hon, hstepIn, -, -, huse, -, hspare, hunmarked⟩ := calls_answer_or_leave w
  obtain ⟨hafter, -, -, -, -, hnull, -⟩ := calls_answer_or_leave w.advance.2
  have hcurrent : w.current? = some (.ofScalar .string "b") := rfl
  have hlist : w.advance.2.current? = some list := rfl
  have hmarks : cursor.MarksSpare calls w :=
    ⟨fun _ => .inl rfl, fun _ => .inr rfl, nofun, nofun, fun _ => .inl rfl, nofun, fun _ => .inr rfl,
      trivial⟩
  obtain ⟨p, haccessor, hread⟩ := (hon .string).fit _ hcurrent rfl rfl
  obtain rfl : "b" = p := Option.some.inj haccessor
  refine ⟨(hbefore .string).nowhere rfl, hout rfl, hcurrent, hread,
    (hon .blob).misfit _ hcurrent rfl nofun, hstepIn.misfit _ hcurrent rfl rfl,
    huse _ hcurrent rfl, (hafter .string).null _ _ hlist rfl, ?_, hspare .stepIn (.inr rfl), hmarks,
    (hunmarked calls hmarks).1⟩
  apply hnull
  intro e he
  obtain rfl := Option.some.inj (hlist.symm.trans he)
  rfl

end Walk
end IonDocument
