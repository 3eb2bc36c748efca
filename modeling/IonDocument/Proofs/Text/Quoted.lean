import IonDocument.Proofs.Text.Escape
import Mathlib.Tactic.SplitIfs

/-! # Reading up to the closing quote

Escaped characters are read one after another until the quote comes that nothing escapes. So what stands
in quotes is read back, and the rest of the text is left as it was, whatever it begins with.
-/
namespace IonDocument.Escape
variable {q c d : Char} {r rest cs : List Char}

theorem length_of_afterBackslash (h : afterBackslash cs = some (d, rest)) :
    rest.length < cs.length := by
  unfold afterBackslash at h
  split at h <;> cases h <;> simp only [List.length_cons] <;> omega

theorem length_of_unescape (h : unescape cs = some (d, rest)) : rest.length < cs.length := by
  cases cs with
  | nil => cases h
  | cons c r =>
    rw [unescape] at h
    split at h
    · exact Nat.lt_succ_of_lt (length_of_afterBackslash h)
    · cases h
      exact Nat.lt_succ_self _

/-- What stands before the closing quote, and what is left behind it. -/
def readTo (q : Char) : List Char → Option (List Char × List Char)
  | [] => none
  | c :: r =>
    -- No escape begins with the quote, so it can be tested first.
    if c = q then some ([], r)
    else match _h : unescape (c :: r) with
      | none => none
      | some (d, rest) => (readTo q rest).map fun (ds, s) => (d :: ds, s)
termination_by cs => cs.length
decreasing_by exact length_of_unescape _h

theorem readTo_quote (q : Char) (r : List Char) : readTo q (q :: r) = some ([], r) := by
  rw [readTo, if_pos rfl]

theorem readTo_of_unescape (hq : ∀ s, cs ≠ q :: s) (h : unescape cs = some (d, rest)) :
    readTo q cs = (readTo q rest).map fun (ds, s) => (d :: ds, s) := by
  cases cs with
  | nil => cases h
  | cons c r =>
    have hc : c ≠ q := by
      rintro rfl
      exact hq r rfl
    rw [readTo, if_neg hc]
    split
    · next hnone => rw [hnone] at h; cases h
    · next hsome =>
      rw [hsome] at h
      cases h
      rfl

/-- A sequence of escapes, none of which begins with the quote. -/
theorem readTo_flatMap {α : Type} {f : α → List Char} {value : α → Char}
    (hread : ∀ a r, unescape (f a ++ r) = some (value a, r)) (hquote : ∀ a r s, f a ++ r ≠ q :: s)
    (as : List α) (r : List Char) :
    readTo q (as.flatMap f ++ q :: r) = some (as.map value, r) := by
  induction as with
  | nil => exact readTo_quote q r
  | cons a as ih =>
    rw [List.flatMap_cons, List.append_assoc, readTo_of_unescape (hquote a _) (hread a _), ih]
    rfl

theorem readTo_text (q : Quote) (cs r : List Char) :
    readTo q.char (text q cs ++ q.char :: r) = some (cs, r) := by
  have h : readTo q.char (text q cs ++ q.char :: r) = some (cs.map id, r) :=
    readTo_flatMap (unescape_character q) (character_ne_quote q) cs r
  rw [h, List.map_id]

/-- The bytes of a clob before the closing quote, and what is left behind it. -/
def readBytes (cs : List Char) : Option (List UInt8 × List Char) :=
  (readTo '"' cs).map fun (ds, r) => (ds.map fun d => .ofNat d.toNat, r)

theorem readBytes_bytes (bs : List UInt8) (r : List Char) :
    readBytes (bytes bs ++ '"' :: r) = some (bs, r) := by
  have hbyte : ∀ b ∈ bs, UInt8.ofNat (Char.ofNat b.toNat).toNat = b := by
    intro b _
    rw [toNat_ofNat_of_lt b.toNat_lt, UInt8.ofNat_toNat]
  have hread := readTo_flatMap unescape_byte byte_ne_quote bs r
  rw [readBytes, bytes, hread, Option.map_some]
  simp only [List.map_map, Function.comp_def]
  rw [List.map_congr_left hbyte, List.map_id']

/-- A printable character of ASCII. -/
def isPrintable (c : Char) : Bool := 0x20 ≤ c.toNat && c.toNat ≤ 0x7E

/-- The control characters of ASCII and those above it. -/
def isControl (c : Char) : Bool := c.toNat < 0x20 || (0x7F ≤ c.toNat && c.toNat ≤ 0x9F)

theorem isControl_of_isPrintable (h : isPrintable c = true) : isControl c = false := by
  simp only [isPrintable, isControl, Bool.and_eq_true, decide_eq_true_eq, Bool.or_eq_false_iff,
    Bool.and_eq_false_iff, decide_eq_false_iff_not] at h ⊢
  omega

/-- What one character in quotes is written as: itself if it is in `p` and means nothing else, or a
backslash with some printable character and digits behind it. -/
inductive Escaped (p : Char → Bool) (q : Char) : List Char → Prop where
  | raw {c : Char} (hc : p c = true) (hslash : c ≠ '\\') (hquote : c ≠ q) : Escaped p q [c]
  | backslash {c : Char} {ds : List Char} (hc : isPrintable c = true)
    (hds : ∀ d ∈ ds, isPrintable d = true ∧ d.isAlphanum = true) : Escaped p q ('\\' :: c :: ds)

theorem digit_of_mem_hexByte {n : Nat} (h : n < 256) (hd : d ∈ Numeral.hexByte n) :
    isPrintable d = true ∧ d.isAlphanum = true := by
  have hdigit : ∀ n < 16, isPrintable (Numeral.hexDigit n) = true ∧
      (Numeral.hexDigit n).isAlphanum = true := by decide
  simp only [Numeral.hexByte, List.mem_cons, List.not_mem_nil, or_false] at hd
  rcases hd with rfl | rfl
  · exact hdigit _ (by omega)
  · exact hdigit _ (by omega)

theorem Escaped.named {p : Char → Bool} (hc : isPrintable c = true) : Escaped p q ['\\', c] :=
  .backslash hc nofun

theorem escaped_byte (b : UInt8) : Escaped isPrintable '"' (byte b) := by
  have hb := b.toNat_lt
  have hne : ∀ c : Char, b.toNat ≠ c.toNat → Char.ofNat b.toNat ≠ c := by
    rintro c hc rfl
    exact hc (toNat_ofNat_of_lt hb).symm
  unfold byte
  dsimp only
  split_ifs with hquote hslash hraw
  · exact .named rfl
  · exact .named rfl
  · refine .raw ?_ (hne _ hslash) (hne _ hquote)
    rw [isPrintable, toNat_ofNat_of_lt hb]
    simp [hraw]
  · exact .backslash rfl fun _ => digit_of_mem_hexByte hb

theorem escaped_character (q : Quote) (c : Char) :
    Escaped (fun c => !isControl c) q.char (character q c) := by
  unfold character
  split_ifs with hslash _ _ _ hquote hlow hhigh
  · exact .named rfl
  · exact .named rfl
  · exact .named rfl
  · exact .named rfl
  · rw [hquote]
    exact .named (by cases q <;> rfl)
  · exact .backslash rfl fun _ => digit_of_mem_hexByte (by omega)
  · refine .backslash rfl (List.forall_mem_cons.mpr ⟨⟨rfl, rfl⟩, ?_⟩)
    exact List.forall_mem_cons.mpr ⟨⟨rfl, rfl⟩, fun _ => digit_of_mem_hexByte (by omega)⟩
  · refine .raw ?_ hslash hquote
    simp only [isControl, Bool.not_eq_true', Bool.or_eq_false_iff, Bool.and_eq_false_iff,
      decide_eq_false_iff_not]
    omega

theorem Escaped.forall_mem {p : Char → Bool} (hp : ∀ c, isPrintable c = true → p c = true)
    (h : Escaped p q cs) : ∀ c ∈ cs, p c = true := by
  cases h with
  | raw hc => exact List.forall_mem_singleton.mpr hc
  | backslash hc hds =>
    exact List.forall_mem_cons.mpr ⟨hp _ rfl, List.forall_mem_cons.mpr ⟨hp _ hc,
      fun d hd => hp d (hds d hd).1⟩⟩

theorem isPrintable_of_mem_bytes {bs : List UInt8} (h : c ∈ bytes bs) : isPrintable c = true := by
  obtain ⟨b, -, hc⟩ := List.mem_flatMap.mp h
  exact (escaped_byte b).forall_mem (fun _ => id) c hc

theorem isControl_of_mem_text {q : Quote} (h : c ∈ text q cs) : isControl c = false := by
  obtain ⟨d, -, hc⟩ := List.mem_flatMap.mp h
  have hmem := (escaped_character q d).forall_mem
    (fun c hc => by rw [isControl_of_isPrintable hc]; rfl) c hc
  simpa using hmem

/-- What is read back up to the closing quote, whatever follows, begins nothing else that is. -/
theorem prefix_iff_of_reads_back {α : Type} {write : List α → List Char}
    {read : List Char → Option (List α × List Char)}
    (hread : ∀ as r, read (write as ++ q :: r) = some (as, r)) (as bs : List α) (r : List Char) :
    write as ++ [q] <+: write bs ++ q :: r ↔ as = bs := by
  constructor
  · rintro ⟨s, hs⟩
    rw [List.append_assoc, List.singleton_append] at hs
    have h := hread as s
    rw [hs, hread] at h
    exact (Prod.mk.inj (Option.some.inj h)).1.symm
  · rintro rfl
    exact ⟨r, List.append_assoc _ _ _⟩

theorem inj_iff_of_reads_back {α : Type} {write : List α → List Char}
    {read : List Char → Option (List α × List Char)}
    (hread : ∀ as r, read (write as ++ q :: r) = some (as, r)) (as bs : List α) :
    write as = write bs ↔ as = bs := by
  constructor
  · intro h
    exact (prefix_iff_of_reads_back hread as bs []).mp (h ▸ List.prefix_rfl)
  · exact congrArg write

/-- Escaped text and escaped bytes are read back up to the quote that closes them, and to no other. So
no two of them are the same, and none is the beginning of another when its quote is closed. Escaped
bytes are printable. -/
theorem escapes_read_back (q : Quote) :
    (∀ cs r, readTo q.char (text q cs ++ q.char :: r) = some (cs, r)) ∧
      (∀ bs r, readBytes (bytes bs ++ '"' :: r) = some (bs, r)) ∧
      (∀ bs, (bytes bs).all isPrintable = true) ∧
      (∀ cs ds, text q cs = text q ds ↔ cs = ds) ∧
      (∀ as bs, bytes as = bytes bs ↔ as = bs) ∧
      (∀ cs ds r, text q cs ++ [q.char] <+: text q ds ++ q.char :: r ↔ cs = ds) ∧
      ∀ as bs r, bytes as ++ ['"'] <+: bytes bs ++ '"' :: r ↔ as = bs := by
  have hprintable : ∀ bs, (bytes bs).all isPrintable = true :=
    fun bs => List.all_eq_true.mpr fun _ => isPrintable_of_mem_bytes
  exact ⟨readTo_text q, readBytes_bytes, hprintable, inj_iff_of_reads_back (readTo_text q),
    inj_iff_of_reads_back readBytes_bytes, prefix_iff_of_reads_back (readTo_text q),
    prefix_iff_of_reads_back readBytes_bytes⟩

end IonDocument.Escape
