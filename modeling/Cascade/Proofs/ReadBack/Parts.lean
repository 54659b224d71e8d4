import Cascade.Json.Decode
import Cascade.Json.Text

/-! # Strings and integers are read back

The text of a string or of an integer is read up to its last character and no further, whatever
comes behind it, as long as no digits are added to the integer. What is read decodes to the same
string and to the same integer, if that fits a word.
-/
namespace Cascade.Json

/-! ## Strings -/

/-- How a character is written in a string: by a letter of its own, by its code, or as it is. -/
inductive EscapeForm (c : Char) : Prop where
  | short {e : Char} (h : escaped c = ['\\', e]) (he : shortEscape? e = some c) : EscapeForm c
  | unit (h : escaped c =
      ['\\', 'u', '0', '0', hexDigit (c.toNat / 16), hexDigit (c.toNat % 16)])
    (hc : c.toNat < 32) : EscapeForm c
  | raw (h : escaped c = [c]) (hquote : c ≠ '"') (hescape : c ≠ '\\') (hc : 32 ≤ c.toNat) :
    EscapeForm c

theorem escape_form (c : Char) : EscapeForm c := by
  by_cases hshort : c = '"' ∨ c = '\\' ∨ c = '\n' ∨ c = '\r' ∨ c = '\t' ∨ c = '\x08' ∨ c = '\x0c'
  · rcases hshort with rfl | rfl | rfl | rfl | rfl | rfl | rfl <;> exact .short rfl rfl
  · simp only [not_or] at hshort
    have h : escaped c = if c.toNat < 32 then
        ['\\', 'u', '0', '0', hexDigit (c.toNat / 16), hexDigit (c.toNat % 16)] else [c] := by
      simp [escaped, hshort]
    by_cases hc : c.toNat < 32
    · exact .unit (h.trans (if_pos hc)) hc
    · exact .raw (h.trans (if_neg hc)) hshort.1 hshort.2.1 (Nat.le_of_not_lt hc)

theorem hexValue?_hexDigit {n : Nat} (h : n < 16) : hexValue? (hexDigit n) = some n := by
  have hall : ∀ m < 16, hexValue? (hexDigit m) = some m := by decide
  exact hall n h

theorem readLiteral_unit {u : Nat} (h : u < 256) (rest : List Char) :
    readLiteral ('\\' :: 'u' :: '0' :: '0' :: hexDigit (u / 16) :: hexDigit (u % 16) :: rest) =
      (readLiteral rest).map fun r => (.unit u :: r.1, r.2) := by
  have hzero : hexValue? '0' = some 0 := by decide
  have hhigh : hexValue? (hexDigit (u / 16)) = some (u / 16) := hexValue?_hexDigit (by omega)
  have hlow : hexValue? (hexDigit (u % 16)) = some (u % 16) := hexValue?_hexDigit (by omega)
  have hu : ((0 * 16 + 0) * 16 + u / 16) * 16 + u % 16 = u := by omega
  rw [readLiteral]
  simp only [hzero, hhigh, hlow, Option.bind_eq_bind, Option.bind_some, hu]
  cases readLiteral rest <;> rfl

theorem readLiteral_short {e c : Char} (h : shortEscape? e = some c) (rest : List Char) :
    readLiteral ('\\' :: e :: rest) =
      (readLiteral rest).map fun r => (.char c :: r.1, r.2) := by
  rw [readLiteral]
  · rw [h]
    cases readLiteral rest <;> rfl
  · rintro _ _ _ _ _ ⟨⟩
    cases h

theorem readLiteral_raw {c : Char} (hquote : c ≠ '"') (hescape : c ≠ '\\') (hc : 32 ≤ c.toNat)
    (rest : List Char) : readLiteral (c :: rest) =
      (readLiteral rest).map fun r => (.char c :: r.1, r.2) := by
  have hplain : (c = '\\' || c.toNat < 32) = false := by simp [hescape, hc]
  rw [readLiteral]
  · rw [hplain]
    cases readLiteral rest <;> rfl
  all_goals simp [hquote, hescape]

/-- No unit below the surrogates is taken together with the one behind it. -/
theorem chars?_unit {u : Nat} (h : u < 0xD800) (l : Literal) :
    Literal.chars? (.unit u :: l) = (Literal.chars? l).map (Char.ofNat u :: ·) := by
  match l with
  | [] => simp [Literal.chars?, h]
  | .char _ :: _ => simp [Literal.chars?, h]
  | .unit _ :: _ => simp [Literal.chars?, h]

/-- The escaped character is read as this one glyph, which is decoded to it. -/
structure Glyph.Spells (g : Glyph) (c : Char) : Prop where
  read (rest : List Char) : readLiteral (escaped c ++ rest) =
    (readLiteral rest).map fun r => (g :: r.1, r.2)
  decoded (l : Literal) : Literal.chars? (g :: l) = (Literal.chars? l).map (c :: ·)

theorem exists_glyph (c : Char) : ∃ g : Glyph, g.Spells c := by
  cases escape_form c with
  | short hc he =>
    refine ⟨.char c,fun rest => ?_,fun _ => rfl⟩
    rw [hc]
    exact readLiteral_short he rest
  | unit hc hcontrol =>
    refine ⟨.unit c.toNat,fun rest => ?_,fun l => ?_⟩
    · rw [hc]
      exact readLiteral_unit (by omega) rest
    · rw [chars?_unit (by omega), Char.ofNat_toNat]
  | raw hc hquote hescape hplain =>
    refine ⟨.char c,fun rest => ?_,fun _ => rfl⟩
    rw [hc]
    exact readLiteral_raw hquote hescape hplain rest

/-- The literal that a quoted text is read as, up to its closing quote. -/
theorem exists_literal (s : String) : ∃ l : Literal, l.string? = some s ∧
    ∀ rest, readLiteral (s.toList.flatMap escaped ++ '"' :: rest) = some (l, rest) := by
  suffices h : ∀ cs : List Char, ∃ l : Literal, l.chars? = some cs ∧
      ∀ rest, readLiteral (cs.flatMap escaped ++ '"' :: rest) = some (l, rest) by
    obtain ⟨l,hl,hread⟩ := h s.toList
    refine ⟨l,?_,hread⟩
    rw [Literal.string?, hl, Option.map_some, String.ofList_toList]
  intro cs
  induction cs with
  | nil => exact ⟨[],rfl,fun _ => rfl⟩
  | cons c cs ih =>
    obtain ⟨l,hl,hread⟩ := ih
    obtain ⟨g,hg⟩ := exists_glyph c
    refine ⟨g :: l,?_,fun rest => ?_⟩
    · rw [hg.decoded, hl]
      rfl
    · rw [List.flatMap_cons, List.append_assoc, hg.read, hread]
      rfl

/-! ## Integers -/

/-- What comes next adds nothing to an integer. -/
def Ends (rest : List Char) : Prop :=
  ∀ c ∈ rest.head?, c.isDigit = false ∧ c ≠ '.' ∧ c ≠ 'e' ∧ c ≠ 'E'

theorem ends_nil : Ends [] := nofun

theorem ends_cons {c : Char} (h : c = ',' ∨ c = ']' ∨ c = '\x7d') (rest : List Char) :
    Ends (c :: rest) := by
  rintro d ⟨⟩
  rcases h with rfl | rfl | rfl <;> decide

theorem head?_toDigits_append (n : Nat) (rest : List Char) :
    (Nat.toDigits 10 n ++ rest).head? = (Nat.toDigits 10 n).head? := by
  have hsome : (Nat.toDigits 10 n).head?.isSome := List.isSome_head?.2 Nat.toDigits_ne_nil
  rw [List.head?_append, Option.or_of_isSome hsome]

/-- No digit is written before the leading one. -/
theorem head?_toDigits {n : Nat} (h : 0 < n) : (Nat.toDigits 10 n).head? ≠ some '0' := by
  induction n using Nat.strongRecOn with
  | ind n ih =>
    rw [Nat.toDigits_eq_if (by decide)]
    split
    · rename_i hn
      have hall : ∀ m < 10, 0 < m → [Nat.digitChar m].head? ≠ some '0' := by decide
      exact hall n hn h
    · rename_i hn
      rw [head?_toDigits_append]
      exact ih (n / 10) (by omega) (by omega)

theorem takeWhile_isDigit_of_ends {rest : List Char} (h : Ends rest) :
    rest.takeWhile Char.isDigit = [] ∧ rest.dropWhile Char.isDigit = rest := by
  cases rest with
  | nil => exact ⟨rfl,rfl⟩
  | cons c cs =>
    have hc : c.isDigit = false := (h c rfl).1
    exact ⟨List.takeWhile_cons_of_neg (by simp [hc]),List.dropWhile_cons_of_neg (by simp [hc])⟩

theorem readDigits_toDigits (n : Nat) {rest : List Char} (h : Ends rest) :
    readDigits (Nat.toDigits 10 n ++ rest) = some (Nat.toDigits 10 n, rest) := by
  have hdigits : ∀ c ∈ Nat.toDigits 10 n, c.isDigit = true :=
    fun c hc => Nat.isDigit_of_mem_toDigits (by decide) (by decide) hc
  obtain ⟨htake,hdrop⟩ := takeWhile_isDigit_of_ends h
  unfold readDigits
  rw [List.takeWhile_append_of_pos hdigits, List.dropWhile_append_of_pos hdigits, htake, hdrop,
    List.append_nil]
  split
  · exact absurd ‹_› Nat.toDigits_ne_nil
  · rfl

theorem readWhole_toDigits (n : Nat) {rest : List Char} (h : Ends rest) :
    readWhole (Nat.toDigits 10 n ++ rest) = some (Nat.toDigits 10 n, rest) := by
  have hleading : ¬ ((Nat.toDigits 10 n).head? = some '0' ∧ Nat.toDigits 10 n ≠ ['0']) := by
    rintro ⟨hhead,hne⟩
    rcases Nat.eq_zero_or_pos n with rfl | hn
    · exact hne rfl
    · exact head?_toDigits hn hhead
  unfold readWhole
  rw [readDigits_toDigits n h]
  exact if_neg hleading

theorem readFraction_of_ends {rest : List Char} (h : Ends rest) :
    readFraction rest = some ([], rest) := by
  unfold readFraction
  split
  · exact absurd rfl (h '.' rfl).2.1
  · rfl

theorem readExponent_of_ends {rest : List Char} (h : Ends rest) :
    readExponent rest = some (none, rest) := by
  cases rest with
  | nil => rfl
  | cons c cs =>
    obtain ⟨_,_,he,hE⟩ := h c rfl
    unfold readExponent
    simp [he, hE]

/-- The numeral that the text of an integer is read as. -/
def Numeral.ofInt (n : Int) : Numeral := ⟨n < 0, Nat.toDigits 10 n.natAbs, [], none⟩

theorem readUnsigned_toDigits (negative : Bool) (n : Nat) {rest : List Char} (h : Ends rest) :
    readUnsigned negative (Nat.toDigits 10 n ++ rest) =
      some (⟨negative, Nat.toDigits 10 n, [], none⟩, rest) := by
  unfold readUnsigned
  rw [readWhole_toDigits n h]
  simp only [Option.bind_eq_bind, Option.bind_some, readFraction_of_ends h, readExponent_of_ends h]
  rfl

theorem readNumeral_intText (n : Int) {rest : List Char} (h : Ends rest) :
    readNumeral (intText n ++ rest) = some (.ofInt n, rest) := by
  unfold intText Numeral.ofInt
  split
  · rename_i hn
    rw [decide_eq_true hn]
    exact readUnsigned_toDigits true n.natAbs h
  · rename_i hn
    rw [decide_eq_false hn, ← readUnsigned_toDigits false n.natAbs h]
    unfold readNumeral
    split
    · rename_i cs hcs
      have hminus : '-' ∈ Nat.toDigits 10 n.natAbs := by
        have hhead := congrArg List.head? hcs
        rw [head?_toDigits_append] at hhead
        exact List.mem_of_head? hhead
      exact absurd (Nat.isDigit_of_mem_toDigits (by decide) (by decide) hminus) (by decide)
    · rfl

/-- The integer fits a signed or an unsigned word of 64 bits. -/
def FitsWord (n : Int) : Prop := Int64.minValue.toInt ≤ n ∧ n < UInt64.size

theorem le_ofDigitChars (ds : List Char) (acc : Nat) : acc ≤ Nat.ofDigitChars 10 ds acc := by
  induction ds generalizing acc with
  | nil => exact Nat.le_refl acc
  | cons c ds ih =>
    have hnext := ih (10 * acc + (c.toNat - '0'.toNat))
    rw [Nat.ofDigitChars_cons]
    omega

/-- Digits whose number fits a word are all taken. -/
theorem wordOfDigits_of_lt {ds : List Char} {acc : Nat}
    (h : Nat.ofDigitChars 10 ds acc < wordBound) :
    wordOfDigits acc ds = (Nat.ofDigitChars 10 ds acc, []) := by
  induction ds generalizing acc with
  | nil => rfl
  | cons c ds ih =>
    rw [Nat.ofDigitChars_cons] at h ⊢
    have hnext : 10 * acc + (c.toNat - 48) < wordBound :=
      Nat.lt_of_le_of_lt (le_ofDigitChars ds _) h
    rw [wordOfDigits]
    simp only [if_pos hnext]
    exact ih h

theorem number?_ofInt {n : Int} (h : FitsWord n) : (Numeral.ofInt n).number? = some (.int n) := by
  obtain ⟨hlow,hhigh⟩ : -9223372036854775808 ≤ n ∧ n < 18446744073709551616 := h
  have hbound : wordBound = 18446744073709551616 := rfl
  have hdigits : Nat.ofDigitChars 10 (Nat.toDigits 10 n.natAbs) 0 = n.natAbs :=
    Nat.ofDigitChars_toDigits (by decide) (by decide)
  have hword : wordOfDigits 0 (Nat.toDigits 10 n.natAbs) = (n.natAbs, []) := by
    rw [wordOfDigits_of_lt (by omega), hdigits]
  have hsign : (if n < 0 then -(n.natAbs : Int) else n.natAbs) = n := by omega
  have hfits : (!decide (n < 0) || decide (0 < n.natAbs) && decide (2 * n.natAbs ≤ wordBound)) =
      true := by
    simp
    omega
  unfold Numeral.number? Numeral.ofInt
  simp only [hword, hfits, decide_eq_true_eq, hsign]
  rfl

end Cascade.Json
