import IonDocument.Proofs.Text.Quoted

/-! # Scanning quotes and brackets

A scanner that knows nothing of what a text means follows its quotes and its brackets. A piece of text
is self-contained if it leads the scanner back to where it was, and if it stays on its line. Pieces of
plain characters are, and quoted ones, and so is what is put together from such pieces or stands in
brackets.
-/
namespace IonDocument
open Escape

/-- Where a scanner is as to quotes: outside of them, between the quotes of one kind, or there behind a
backslash. -/
inductive Quoting where
  | outside
  | inside (quote : Char)
  | skipping (quote : Char)
  deriving DecidableEq

/-- The state of a scanner; the brackets that are open begin with the innermost one. -/
structure Scan where
  quoting : Quoting
  opened : List Char
  deriving DecidableEq

namespace Scan

def start : Scan := ⟨.outside, []⟩

/-- The bracket that a closing bracket closes. -/
def opening? : Char → Option Char
  | ')' => some '('
  | ']' => some '['
  | '}' => some '{'
  | _ => none

/-- Goes over one character, unless it closes a bracket that is not the innermost open one. -/
def step (s : Scan) (c : Char) : Option Scan :=
  match s.quoting with
  | .outside =>
    if c = '"' ∨ c = '\'' then some { s with quoting := .inside c }
    else if c = '(' ∨ c = '[' ∨ c = '{' then some { s with opened := c :: s.opened }
    else match opening? c with
      | none => some s
      | some bracket =>
        if s.opened.head? = some bracket then some { s with opened := s.opened.tail } else none
  | .inside quote =>
    if c = '\\' then some { s with quoting := .skipping quote }
    else if c = quote then some { s with quoting := .outside }
    else some s
  | .skipping quote => some { s with quoting := .inside quote }

def run (s : Scan) (cs : List Char) : Option Scan := cs.foldlM step s

theorem run_cons (s : Scan) (c : Char) (cs : List Char) :
    s.run (c :: cs) = (s.step c).bind fun t => t.run cs := rfl

theorem run_append (s : Scan) (cs ds : List Char) :
    s.run (cs ++ ds) = (s.run cs).bind fun t => t.run ds := List.foldlM_append

theorem run_of_fixed {s : Scan} {cs : List Char} (h : ∀ c ∈ cs, s.step c = some s) :
    s.run cs = some s := by
  induction cs with
  | nil => rfl
  | cons c cs ih =>
    rw [List.forall_mem_cons] at h
    rw [run_cons, h.1]
    exact ih h.2

theorem run_flatMap {α : Type} {f : α → List Char} {s : Scan} (h : ∀ a, s.run (f a) = some s)
    (as : List α) : s.run (as.flatMap f) = some s := by
  induction as with
  | nil => rfl
  | cons a as ih =>
    rw [List.flatMap_cons, run_append, h]
    exact ih

theorem step_inside {q c : Char} {opened : List Char} (hslash : c ≠ '\\') (hquote : c ≠ q) :
    step ⟨.inside q, opened⟩ c = some ⟨.inside q, opened⟩ := by
  simp only [step, hslash, hquote, if_false]

/-- No escape leads out of the quotes that it stands in. -/
theorem run_escaped {p : Char → Bool} {q : Char} {cs : List Char} (hq : q.isAlphanum = false)
    (h : Escaped p q cs) (opened : List Char) :
    run ⟨.inside q, opened⟩ cs = some ⟨.inside q, opened⟩ := by
  cases h with
  | raw _ hslash hquote => exact run_of_fixed (List.forall_mem_singleton.mpr (step_inside hslash hquote))
  | @backslash c ds _ hds =>
    -- One character is skipped behind the backslash, and digits neither close quotes nor escape.
    have hdigits : ∀ d ∈ ds, step ⟨.inside q, opened⟩ d = some ⟨.inside q, opened⟩ := by
      intro d hd
      have hdigit := (hds d hd).2
      apply step_inside
      · rintro rfl
        cases hdigit
      · rintro rfl
        rw [hq] at hdigit
        cases hdigit
    have hslash : step ⟨.inside q, opened⟩ '\\' = some ⟨.skipping q, opened⟩ := rfl
    have hskip : step ⟨.skipping q, opened⟩ c = some ⟨.inside q, opened⟩ := rfl
    rw [run_cons, hslash, Option.bind_some, run_cons, hskip]
    exact run_of_fixed hdigits

end Scan

/-- A piece of text without control characters, with its quotes closed and its brackets balanced. -/
structure SelfContained (cs : List Char) : Prop where
  noControl : ∀ c ∈ cs, isControl c = false
  scan : ∀ opened, Scan.run ⟨.outside, opened⟩ cs = some ⟨.outside, opened⟩

theorem selfContained_nil : SelfContained [] := ⟨nofun, fun _ => rfl⟩

theorem SelfContained.append {cs ds : List Char} (hc : SelfContained cs) (hd : SelfContained ds) :
    SelfContained (cs ++ ds) := by
  refine ⟨List.forall_mem_append.mpr ⟨hc.noControl, hd.noControl⟩, ?_⟩
  intro opened
  rw [Scan.run_append, hc.scan]
  exact hd.scan opened

theorem selfContained_flatMap {α : Type} {f : α → List Char} (h : ∀ a, SelfContained (f a))
    (as : List α) : SelfContained (as.flatMap f) := by
  refine ⟨?_, fun opened => Scan.run_flatMap (fun a => (h a).scan opened) as⟩
  intro c hc
  obtain ⟨a, -, hc⟩ := List.mem_flatMap.mp hc
  exact (h a).noControl c hc

/-- All characters that do not just stand for themselves. -/
def marks : List Char :=
  ['"', '\'', '(', ')', '[', ']', '{', '}'] ++
    (List.range 0x20 ++ List.range' 0x7F 0x21).map Char.ofNat

def isPlain (c : Char) : Bool := !marks.contains c

theorem isControl_of_isPlain {c : Char} (h : isPlain c = true) : isControl c = false := by
  rw [← Bool.not_eq_true]
  intro hc
  have hmem : c ∈ marks := by
    apply List.mem_append_right
    refine List.mem_map.mpr ⟨c.toNat, ?_, Char.ofNat_toNat c⟩
    simp only [isControl, Bool.or_eq_true, Bool.and_eq_true, decide_eq_true_eq] at hc
    simp only [List.mem_append, List.mem_range, List.mem_range'_1]
    omega
  rw [isPlain, List.contains_iff_mem.mpr hmem] at h
  cases h

theorem Scan.step_of_isPlain {c : Char} (h : isPlain c = true) (opened : List Char) :
    step ⟨.outside, opened⟩ c = some ⟨.outside, opened⟩ := by
  have hne : ∀ d ∈ marks, c ≠ d := by
    rintro d hd rfl
    rw [isPlain, List.contains_iff_mem.mpr hd] at h
    cases h
  simp only [marks, List.cons_append, List.forall_mem_cons] at hne
  obtain ⟨h₁, h₂, h₃, h₄, h₅, h₆, h₇, h₈, -⟩ := hne
  have hopening : opening? c = none := by
    unfold opening?
    split <;> simp_all
  simp only [step, h₁, h₂, h₃, h₅, h₇, or_self, if_false, hopening]

theorem selfContained_of_isPlain {cs : List Char} (h : ∀ c ∈ cs, isPlain c = true) :
    SelfContained cs :=
  ⟨fun c hc => isControl_of_isPlain (h c hc),
    fun opened => Scan.run_of_fixed fun c hc => Scan.step_of_isPlain (h c hc) opened⟩

theorem selfContained_of_all {cs : List Char} (h : cs.all isPlain = true) : SelfContained cs :=
  selfContained_of_isPlain (List.all_eq_true.mp h)

/-- A text made of characters of a class without marks. -/
theorem selfContained_of_class {p : Char → Bool} {cs : List Char} (hp : marks.any p = false)
    (h : ∀ c ∈ cs, p c = true) : SelfContained cs :=
  selfContained_of_isPlain fun c hc => Text.not_contains_of hp (h c hc)

theorem SelfContained.cons {c : Char} {cs : List Char} (hc : isPlain c = true)
    (h : SelfContained cs) : SelfContained (c :: cs) :=
  (selfContained_of_isPlain (List.forall_mem_singleton.mpr hc)).append h

def bracketPairs : List (Char × Char) := [('(', ')'), ('[', ']'), ('{', '}')]

theorem Scan.step_bracket {bracket close : Char} (hpair : (bracket, close) ∈ bracketPairs)
    (opened : List Char) :
    step ⟨.outside, opened⟩ bracket = some ⟨.outside, bracket :: opened⟩ ∧
      step ⟨.outside, bracket :: opened⟩ close = some ⟨.outside, opened⟩ := by
  simp only [bracketPairs, List.mem_cons, Prod.mk.injEq, List.not_mem_nil, or_false] at hpair
  rcases hpair with ⟨rfl, rfl⟩ | ⟨rfl, rfl⟩ | ⟨rfl, rfl⟩
  · exact ⟨rfl, rfl⟩
  · exact ⟨rfl, rfl⟩
  · exact ⟨rfl, rfl⟩

theorem SelfContained.bracketed {bracket close : Char} {cs : List Char} (h : SelfContained cs)
    (hpair : (bracket, close) ∈ bracketPairs) : SelfContained (bracket :: (cs ++ [close])) := by
  have hcontrol : ∀ pair ∈ bracketPairs, isControl pair.1 = false ∧ isControl pair.2 = false := by
    decide
  obtain ⟨hbracket, hclose⟩ := hcontrol _ hpair
  refine ⟨?_, ?_⟩
  · exact List.forall_mem_cons.mpr ⟨hbracket, List.forall_mem_append.mpr
      ⟨h.noControl, List.forall_mem_singleton.mpr hclose⟩⟩
  · intro opened
    obtain ⟨hopen, hclose⟩ := Scan.step_bracket hpair opened
    rw [Scan.run_cons, hopen, Option.bind_some, Scan.run_append, h.scan, Option.bind_some,
      Scan.run_cons, hclose]
    rfl

/-- Between quotes a scanner stays there, after whatever was written. -/
theorem Scan.run_between {α : Type} {f : α → List Char} {p : Char → Bool} {q : Quote}
    (h : ∀ a, Escaped p q.char (f a)) (as : List α) (opened : List Char) :
    run ⟨.outside, opened⟩ (q.char :: as.flatMap f) = some ⟨.inside q.char, opened⟩ := by
  have halphanum : q.char.isAlphanum = false := by cases q <;> rfl
  have henter : step ⟨.outside, opened⟩ q.char = some ⟨.inside q.char, opened⟩ := by
    cases q <;> rfl
  rw [run_cons, henter]
  exact run_flatMap (fun a => run_escaped halphanum (h a) opened) as

theorem selfContained_escaped {α : Type} {f : α → List Char} {p : Char → Bool} {q : Quote}
    (h : ∀ a, Escaped p q.char (f a)) (as : List α)
    (hcontrol : ∀ c ∈ as.flatMap f, isControl c = false) :
    SelfContained (q.char :: (as.flatMap f ++ [q.char])) := by
  have hq : isControl q.char = false := by cases q <;> rfl
  refine ⟨?_, ?_⟩
  · exact List.forall_mem_cons.mpr ⟨hq, List.forall_mem_append.mpr
      ⟨hcontrol, List.forall_mem_singleton.mpr hq⟩⟩
  · intro opened
    have hleave : Scan.step ⟨.inside q.char, opened⟩ q.char = some ⟨.outside, opened⟩ := by
      cases q <;> rfl
    rw [← List.cons_append, Scan.run_append, Scan.run_between h, Option.bind_some, Scan.run_cons,
      hleave]
    rfl

theorem selfContained_quoted (q : Quote) (cs : List Char) : SelfContained (quoted q cs) :=
  selfContained_escaped (escaped_character q) cs fun _ => isControl_of_mem_text

theorem selfContained_bytes (bs : List UInt8) : SelfContained ('"' :: (bytes bs ++ ['"'])) :=
  selfContained_escaped (q := .double) escaped_byte bs
    fun _ hc => isControl_of_isPrintable (isPrintable_of_mem_bytes hc)

end IonDocument
