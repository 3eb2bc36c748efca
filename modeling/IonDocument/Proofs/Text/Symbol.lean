import IonDocument.Text.Symbol
import IonDocument.Proofs.Text.Escape
import IonDocument.Proofs.Text.Numeral

/-! # Reading symbol tokens

A token is spelled as a word or in single quotes. A word is over where a character comes that no
word contains, and from its spelling a token is known up to the id beside a text.
-/
namespace IonDocument.Token
open Escape Text

/-- The token can be told from others by its text or its id. -/
def isLegible (token : Token) : Bool := token.text.isSome || token.id.isSome

def isWordStart (c : Char) : Bool := c.isAlpha || c == '_' || c == '$'

def isWordChar (c : Char) : Bool := c.isAlphanum || c == '_' || c == '$'

/-- A bare symbol, as a text or as an id. -/
def isWord : List Char → Bool
  | [] => false
  | c :: rest => isWordStart c && rest.all isWordChar && !reserved.contains (c :: rest)

theorem isWordChar_of_isWordStart {c : Char} (h : isWordStart c = true) : isWordChar c = true := by
  simp only [isWordStart, isWordChar, Char.isAlphanum, Bool.or_eq_true] at h ⊢
  rcases h with (h | h) | h
  · exact .inl (.inl (.inl h))
  · exact .inl (.inr h)
  · exact .inr h

theorem isWordChar_of_mem {cs : List Char} (h : isWord cs = true) {c : Char} (hc : c ∈ cs) :
    isWordChar c = true := by
  cases cs with
  | nil => cases hc
  | cons d rest =>
    simp only [isWord, Bool.and_eq_true] at h
    obtain ⟨⟨hstart, hrest⟩, -⟩ := h
    rcases List.mem_cons.mp hc with rfl | hc
    · exact isWordChar_of_isWordStart hstart
    · exact List.all_eq_true.mp hrest c hc

theorem begins_of_isWord {cs : List Char} (h : isWord cs = true) : Begins isWordStart cs := by
  cases cs with
  | nil => cases h
  | cons c rest =>
    simp only [isWord, Bool.and_eq_true] at h
    exact begins_cons h.1.1

theorem not_reserved_of_isWord {cs : List Char} (h : isWord cs = true) : cs ∉ reserved := by
  cases cs with
  | nil => cases h
  | cons c rest =>
    simp only [isWord, Bool.and_eq_true, Bool.not_eq_true'] at h
    intro hmem
    rw [List.contains_iff_mem.mpr hmem] at h
    cases h.2

theorem isIdentifier_eq (cs : List Char) : isIdentifier cs = (isWord cs && !looksLikeId cs) := by
  cases cs with
  | nil => rfl
  | cons c rest =>
    simp only [isIdentifier, isWord]
    rw [Bool.and_right_comm]
    rfl

theorem looksLikeId_nat (n : Nat) : looksLikeId ('$' :: Numeral.nat n) = true := by
  simp only [looksLikeId, Bool.and_eq_true, Bool.not_eq_true', List.isEmpty_eq_false_iff]
  refine ⟨Numeral.nat_ne_nil n, ?_⟩
  rw [List.all_eq_true]
  intro c hc
  exact Numeral.isDigit_of_mem_nat hc

theorem isWord_nat (n : Nat) : isWord ('$' :: Numeral.nat n) = true := by
  have hrest : (Numeral.nat n).all isWordChar = true := by
    rw [List.all_eq_true]
    intro c hc
    simp [isWordChar, Char.isAlphanum, Numeral.isDigit_of_mem_nat hc]
  simp [isWord, hrest, reserved, isWordStart]

/-- The ways to spell a token. -/
inductive Spelling (token : Token) : List Char → Prop where
  | bare {text : String} (ht : token.text = some text) (h : isIdentifier text.toList = true) :
    Spelling token text.toList
  | quoted {text : String} (ht : token.text = some text) :
    Spelling token (quoted .single text.toList)
  | id {n : Nat} (ht : token.text = none) (hn : token.id = some n) :
    Spelling token ('$' :: Numeral.nat n)

theorem spelling {token : Token} (h : token.isLegible = true) : Spelling token token.chars := by
  rcases token with ⟨_ | text, id⟩
  · cases id with
    | none => cases h
    | some n => exact .id rfl rfl
  · by_cases hi : isIdentifier text.toList = true
    · have hchars : chars ⟨some text, id⟩ = text.toList := if_pos hi
      rw [hchars]
      exact .bare rfl hi
    · have hchars : chars ⟨some text, id⟩ = Escape.quoted .single text.toList := if_neg hi
      rw [hchars]
      exact .quoted rfl

/-- A token is a word, or it begins with a quote. -/
theorem Spelling.isWord_or {token : Token} {cs : List Char} (h : Spelling token cs) :
    isWord cs = true ∨ ∃ text, token.text = some text ∧ cs = Escape.quoted .single text.toList := by
  cases h with
  | bare ht hi =>
    rw [isIdentifier_eq, Bool.and_eq_true] at hi
    exact .inl hi.1
  | quoted ht => exact .inr ⟨_, ht, rfl⟩
  | id ht hn => exact .inl (isWord_nat _)

theorem isWord_ne_quote {cs r s : List Char} (h : isWord cs = true) : cs ++ r ≠ '\'' :: s := by
  intro heq
  cases cs with
  | nil => cases h
  | cons c rest =>
    cases heq
    simp [isWord, isWordStart] at h

theorem begins_chars {token : Token} (h : token.isLegible = true) :
    Begins (fun c => isWordStart c || c = '\'') token.chars := by
  rcases (spelling h).isWord_or with hw | ⟨text, -, hq⟩
  · exact (begins_of_isWord hw).mono fun c hc => by rw [hc, Bool.true_or]
  · rw [hq]
    exact begins_cons (by decide)

theorem same_of_text {a b : Token} {text : String} (ha : a.text = some text)
    (hb : b.text = some text) : a.same b = true := by
  simp [same, ha, hb]

/-- A word is a text or an id, and not both. -/
theorem Spelling.same_of_isWord {a b : Token} {cs ds : List Char} (ha : Spelling a cs)
    (hb : Spelling b ds) (hw : isWord cs = true) (h : cs = ds) : a.same b = true := by
  cases ha with
  | quoted ht => cases hw
  | bare ha hi =>
    rw [isIdentifier_eq, Bool.and_eq_true] at hi
    cases hb with
    | quoted ht =>
      rw [h] at hw
      cases hw
    | bare hb _ =>
      rw [String.toList_inj.mp h] at ha
      exact same_of_text ha hb
    | id _ _ =>
      rw [h, looksLikeId_nat] at hi
      cases hi.2
  | id hna hida =>
    cases hb with
    | quoted ht => cases h
    | bare _ hi =>
      rw [isIdentifier_eq, Bool.and_eq_true, ← h, looksLikeId_nat] at hi
      cases hi.2
    | id hnb hidb =>
      have hn := Numeral.nat_inj (List.cons.inj h).2
      simp [same, hna, hnb, hida, hidb, hn]

theorem chars_append_inj {a b : Token} {r s : List Char} (ha : a.isLegible = true)
    (hb : b.isLegible = true) (hr : Leaves isWordChar r) (hs : Leaves isWordChar s)
    (h : a.chars ++ r = b.chars ++ s) : a.same b = true ∧ r = s := by
  rcases (spelling ha).isWord_or with hwa | ⟨text, hta, hqa⟩
  · rcases (spelling hb).isWord_or with hwb | ⟨_, -, hqb⟩
    · obtain ⟨hchars, hrs⟩ := append_inj (fun _ => isWordChar_of_mem hwa)
        (fun _ => isWordChar_of_mem hwb) hr hs h
      exact ⟨(spelling ha).same_of_isWord (spelling hb) hwa hchars, hrs⟩
    · rw [hqb] at h
      exact absurd h (isWord_ne_quote hwa)
  · rcases (spelling hb).isWord_or with hwb | ⟨_, htb, hqb⟩
    · rw [hqa] at h
      exact absurd h.symm (isWord_ne_quote hwb)
    · rw [hqa, hqb] at h
      obtain ⟨htext, hrs⟩ := quoted_append_inj h
      rw [← String.toList_inj.mp htext] at htb
      exact ⟨same_of_text hta htb, hrs⟩

end IonDocument.Token
