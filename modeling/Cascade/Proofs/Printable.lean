import Cascade.Proofs.ReadBack.Parts

/-! # Texts of values are printable

Whatever strings a value holds, as keys or as items and at any depth, there is no control character
in its text: strings escape them, and the rest of the text is made of other characters.
-/
namespace Cascade

/-- No character is below the blank. -/
def Printable (cs : List Char) : Prop := ∀ c ∈ cs, 32 ≤ c.toNat

instance (cs : List Char) : Decidable (Printable cs) :=
  decidable_of_bool (cs.all fun c => Nat.ble 32 c.toNat) (by simp [Printable])

namespace Printable

theorem nil : Printable [] := nofun

theorem cons {c : Char} {cs : List Char} (hc : 32 ≤ c.toNat) (h : Printable cs) :
    Printable (c :: cs) := List.forall_mem_cons.2 ⟨hc,h⟩

theorem append {cs ds : List Char} (hc : Printable cs) (hd : Printable ds) :
    Printable (cs ++ ds) := List.forall_mem_append.2 ⟨hc,hd⟩

theorem sublist {cs ds : List Char} (h : Printable ds) (hs : cs.Sublist ds) : Printable cs :=
  fun c hc => h c (hs.subset hc)

theorem replicate {c : Char} (hc : 32 ≤ c.toNat) (n : Nat) : Printable (List.replicate n c) :=
  fun _ hd => (List.eq_of_mem_replicate hd).symm ▸ hc

theorem toDigits (n : Nat) : Printable (Nat.toDigits 10 n) := by
  intro c hc
  have hdigit : c.isDigit = true := Nat.isDigit_of_mem_toDigits (by decide) (by decide) hc
  have hrange : 48 ≤ c.toNat ∧ c.toNat ≤ 57 := by
    simpa [Char.isDigit, UInt32.le_iff_toNat_le] using hdigit
  omega

end Printable

/-! ## Numbers -/

namespace Decimal

theorem printable_positional (d : Decimal) : Printable d.positional := by
  have hdigits := Printable.toDigits d.digits
  have hzeros : ∀ n, Printable (List.replicate n '0') := Printable.replicate (by decide)
  unfold positional
  dsimp only
  split
  · exact (hdigits.append (hzeros _)).append (by decide)
  · split
    · exact (hdigits.sublist (List.take_sublist _ _)).append
        (.cons (by decide) (hdigits.sublist (List.drop_sublist _ _)))
    · exact .cons (by decide) (.cons (by decide) ((hzeros _).append hdigits))

theorem printable_scientific (d : Decimal) : Printable d.scientific := by
  have hsign : 32 ≤ (if d.leading < 0 then '-' else '+').toNat := by split <;> decide
  unfold scientific
  refine .append ?_ (.cons (by decide) (.cons hsign (.toDigits _)))
  have hdigits := Printable.toDigits d.digits
  split
  · rename_i c c' rest hd
    rw [hd] at hdigits
    obtain ⟨hc,hrest⟩ := List.forall_mem_cons.1 hdigits
    exact .cons hc (.cons (by decide) hrest)
  · exact hdigits

theorem Layout.printable_floatText (layout : Layout) (x : Float) :
    Printable (layout.floatText x) := by
  have hmagnitude : Printable (if x == 0 then ['0', '.', '0'] else layout.text (shortest x)) := by
    split
    · decide
    · unfold Layout.text
      split
      · exact printable_positional _
      · exact printable_scientific _
  unfold floatText
  dsimp only
  split
  · exact hmagnitude
  · exact .cons (by decide) hmagnitude

end Decimal

namespace Json

theorem Number.printable_chars (n : Number) : Printable n.chars := by
  cases n with
  | int n =>
    show Printable (intText n)
    unfold intText
    split
    · exact .cons (by decide) (.toDigits _)
    · exact .toDigits _
  | float x => exact floatLayout.printable_floatText x

/-! ## Strings -/

theorem printable_escaped (c : Char) : Printable (escaped c) := by
  have hhex : ∀ n < 16, 32 ≤ (hexDigit n).toNat := by decide
  cases escape_form c with
  | @short e h he =>
    have hall : 32 ≤ e.toNat := by
      unfold shortEscape? at he
      split at he
      case h_9 => cases he
      all_goals decide
    rw [h]
    exact .cons (by decide) (.cons hall .nil)
  | unit h hc =>
    rw [h]
    exact .cons (by decide) (.cons (by decide) (.cons (by decide) (.cons (by decide)
      (.cons (hhex _ (by omega)) (.cons (hhex _ (by omega)) .nil)))))
  | raw h _ _ hc =>
    rw [h]
    exact .cons hc .nil

theorem printable_quoted (s : String) : Printable (quoted s) := by
  have hescaped : Printable (s.toList.flatMap escaped) := by
    intro c hc
    obtain ⟨d,_,hd⟩ := List.mem_flatMap.1 hc
    exact printable_escaped d c hd
  exact .cons (by decide) (hescaped.append (.cons (by decide) .nil))

/-! ## Values -/

namespace Value

mutual

/-- Any value will do, also one with floats or with fields in any order. -/
theorem printable_chars : ∀ v : Value, Printable v.chars
  | null | bool true | bool false => by decide
  | number n => n.printable_chars
  | string s => printable_quoted s
  | array items => .cons (by decide) (printable_itemChars items)
  | object fields => .cons (by decide) (printable_fieldChars fields)

theorem printable_itemChars : ∀ items : List Value, Printable (itemChars items)
  | [] => .cons (by decide) .nil
  | [v] => (printable_chars v).append (.cons (by decide) .nil)
  | v :: w :: ws =>
    (printable_chars v).append (.cons (by decide) (printable_itemChars (w :: ws)))

theorem printable_fieldChars : ∀ fields : List (String × Value), Printable (fieldChars fields)
  | [] => .cons (by decide) .nil
  | [(k, v)] =>
    ((printable_quoted k).append (.cons (by decide) (printable_chars v))).append
      (.cons (by decide) .nil)
  | (k, v) :: e :: es =>
    ((printable_quoted k).append (.cons (by decide) (printable_chars v))).append
      (.cons (by decide) (printable_fieldChars (e :: es)))

end

end Value

end Json

end Cascade
