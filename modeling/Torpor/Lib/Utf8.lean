import Mathlib.Data.List.Infix
import Mathlib.Tactic.SplitIfs

/-!
# Text That May Not Be UTF-8

The UTF-8 encoding of a text, and the reading of any bytes as a text: what is not well formed is
read as the replacement character, one for each longest beginning of a character.

## Main results

* `lossy_encode`: the reading of an encoding is the text.
* `prefix_of_encode_prefix`: where an encoding begins another one, the text begins the other text.
* `encode_lossy_take_iff`: a cut through an encoding is read back exactly if it falls between two
  characters.
-/

namespace Utf8

/-- The bytes of a text. -/
def encode (text : List Char) : List UInt8 := text.flatMap String.utf8EncodeChar

/-- The first character of bytes that begin with the encoding of one. -/
def head? (bs : List UInt8) : Option Char := bs.toByteArray.utf8DecodeChar? 0

/-- Whether a byte follows the first one of a character. -/
def isTail (b : UInt8) : Bool := 0x80 ≤ b && b ≤ 0xBF

/-- Whether a byte may be the second one of a character of three or four bytes. -/
def isSecond (a b : UInt8) : Bool :=
  (a = 0xE0 && 0xA0 ≤ b && b ≤ 0xBF) || (0xE1 ≤ a && a ≤ 0xEC && isTail b) ||
    (a = 0xED && 0x80 ≤ b && b ≤ 0x9F) || (0xEE ≤ a && a ≤ 0xEF && isTail b) ||
    (a = 0xF0 && 0x90 ≤ b && b ≤ 0xBF) || (0xF1 ≤ a && a ≤ 0xF3 && isTail b) ||
    (a = 0xF4 && 0x80 ≤ b && b ≤ 0x8F)

/-- How many bytes are read as one replacement character where no character is encoded. -/
def illFormed : List UInt8 → ℕ
  | a :: b :: rest =>
      if isSecond a b then
        match rest with
        | c :: _ => if 0xF0 ≤ a && isTail c then 3 else 2
        | [] => 2
      else 1
  | [_] => 1
  | [] => 1

/-- The reading of at most so many characters. -/
def lossyUpTo : ℕ → List UInt8 → List Char
  | 0, _ => []
  | _ + 1, [] => []
  | n + 1, b :: bs =>
      match head? (b :: bs) with
      | some c => c :: lossyUpTo n ((b :: bs).drop c.utf8Size)
      | none => Char.ofNat 0xFFFD :: lossyUpTo n ((b :: bs).drop (illFormed (b :: bs)))

/-- `String::from_utf8_lossy`. -/
def lossy (bs : List UInt8) : List Char := lossyUpTo bs.length bs

/-! ### Encodings -/

@[simp] theorem encode_nil : encode [] = [] := rfl

theorem encode_cons (c : Char) (text : List Char) :
    encode (c :: text) = String.utf8EncodeChar c ++ encode text := List.flatMap_cons

theorem head?_encode_append (c : Char) (bs : List UInt8) :
    head? (String.utf8EncodeChar c ++ bs) = some c := by
  rw [head?, List.toByteArray_append]
  exact ByteArray.utf8DecodeChar?_utf8EncodeChar_append

/-! ### Readings -/

theorem illFormed_pos (bs : List UInt8) : 0 < illFormed bs := by
  simp only [illFormed]
  split
  · split_ifs
    · split
      · split_ifs <;> decide
      · decide
    · decide
  · decide
  · decide

/-- As many characters as there are bytes are enough. -/
theorem lossyUpTo_of_le {n : ℕ} {bs : List UInt8} (hle : bs.length ≤ n) :
    lossyUpTo n bs = lossy bs := by
  have hagree : ∀ {n m : ℕ} {bs : List UInt8}, bs.length ≤ n → bs.length ≤ m →
      lossyUpTo n bs = lossyUpTo m bs := by
    intro n
    induction n with
    | zero =>
        intro m bs hn hm
        rw [List.eq_nil_of_length_eq_zero (Nat.le_zero.mp hn)]
        cases m <;> rfl
    | succ n ih =>
        intro m bs hn hm
        cases bs with
        | nil => cases m <;> rfl
        | cons b bs =>
            obtain ⟨m, rfl⟩ : ∃ k, m = k + 1 := ⟨m - 1, by simp at hm; omega⟩
            have hshort : ∀ k, 0 < k → ((b :: bs).drop k).length ≤ n ∧
                ((b :: bs).drop k).length ≤ m := fun k hk => by
              simp only [List.length_drop, List.length_cons] at hn hm ⊢
              omega
            simp only [lossyUpTo]
            split
            case h_1 c _ => rw [ih (hshort _ c.utf8Size_pos).1 (hshort _ c.utf8Size_pos).2]
            case h_2 =>
                have hpos := illFormed_pos (b :: bs)
                rw [ih (hshort _ hpos).1 (hshort _ hpos).2]
  exact hagree hle le_rfl

theorem lossy_encodeChar_append (c : Char) (bs : List UInt8) :
    lossy (String.utf8EncodeChar c ++ bs) = c :: lossy bs := by
  have hhead := head?_encode_append c bs
  have hlength := String.length_utf8EncodeChar c
  have hpos := c.utf8Size_pos
  cases hencoded : String.utf8EncodeChar c with
  | nil =>
      rw [hencoded, List.length_nil] at hlength
      omega
  | cons a as =>
      rw [hencoded] at hhead hlength
      rw [lossy, List.cons_append, List.length_cons, lossyUpTo]
      rw [List.cons_append] at hhead
      simp only [hhead]
      rw [← List.cons_append, ← hlength, List.drop_left]
      exact congrArg (c :: ·) (lossyUpTo_of_le (by simp))

/-- The reading of an encoding, whatever follows it, begins with the text. -/
theorem lossy_encode_append (text : List Char) (bs : List UInt8) :
    lossy (encode text ++ bs) = text ++ lossy bs := by
  induction text with
  | nil => rfl
  | cons c text ih =>
      rw [encode_cons, List.append_assoc, lossy_encodeChar_append, ih, List.cons_append]

theorem lossy_encode (text : List Char) : lossy (encode text) = text := by
  have happend := lossy_encode_append text []
  rw [List.append_nil] at happend
  rw [happend]
  exact List.append_nil text

/-- Where an encoding begins another one, the text begins the other text. -/
theorem prefix_of_encode_prefix {text text' : List Char} (h : encode text <+: encode text') :
    text <+: text' := by
  obtain ⟨rest, hrest⟩ := h
  refine ⟨lossy rest, ?_⟩
  rw [← lossy_encode_append, hrest, lossy_encode]

/-! ### Cuts -/

/-- The cut of an encoding after a number of bytes falls between two characters, or behind the
last one. -/
def CutsCleanly (text : List Char) (n : ℕ) : Prop :=
  ∃ k, encode (text.take k) = (encode text).take n

/-- A cut through an encoding is read back exactly if it falls between two characters. -/
theorem encode_lossy_take_iff {text : List Char} {n : ℕ} :
    encode (lossy ((encode text).take n)) = (encode text).take n ↔ CutsCleanly text n := by
  constructor
  · intro hback
    have hprefix : lossy ((encode text).take n) <+: text := by
      refine prefix_of_encode_prefix ?_
      rw [hback]
      exact List.take_prefix n _
    exact ⟨_, (List.prefix_iff_eq_take.mp hprefix) ▸ hback⟩
  · rintro ⟨k, hk⟩
    rw [← hk, lossy_encode]

/-- An encoding that is not longer is not cut. -/
theorem cutsCleanly_of_le {text : List Char} {n : ℕ} (h : (encode text).length ≤ n) :
    CutsCleanly text n :=
  ⟨text.length, by rw [List.take_length, List.take_of_length_le h]⟩

/-! ### ASCII -/

/-- The byte of a character of ASCII. -/
def asciiByte (c : Char) : UInt8 := c.val.toUInt8

theorem encodeChar_ascii {c : Char} (hascii : c.toNat < 128) :
    String.utf8EncodeChar c = [asciiByte c] := by
  refine String.utf8EncodeChar_eq_singleton (Char.utf8Size_eq_one_iff.mpr ?_)
  rw [UInt32.le_iff_toNat_le]
  exact Nat.le_of_lt_succ hascii

theorem exists_not_ascii {c : Char} (h : 128 ≤ c.toNat) :
    ∃ b ∈ String.utf8EncodeChar c, 128 ≤ b.toNat := by
  have hval : 128 ≤ c.val.toNat := h
  simp only [String.utf8EncodeChar]
  split_ifs with h1 h2 h3
  · omega
  all_goals
    refine ⟨UInt8.ofNat (c.val.toNat % 0x40 + 0x80), by simp, ?_⟩
    rw [UInt8.toNat_ofNat']
    omega

theorem encode_of_ascii {s : List Char} (h : ∀ c ∈ s, c.toNat < 128) :
    encode s = s.map asciiByte := by
  induction s with
  | nil => rfl
  | cons c s ih =>
      rw [encode_cons, encodeChar_ascii (h c (by simp)), ih fun d hd => h d (by simp [hd])]
      rfl

/-- A text whose bytes are all of ASCII is one of ASCII. -/
theorem ascii_of_encode {s : List Char} (h : ∀ b ∈ encode s, b.toNat < 128) :
    ∀ c ∈ s, c.toNat < 128 := by
  induction s with
  | nil => simp
  | cons c s ih =>
      rw [encode_cons] at h
      have hc : c.toNat < 128 := by
        by_contra hge
        obtain ⟨b, hb, hlarge⟩ := exists_not_ascii (Nat.le_of_not_lt hge)
        have := h b (List.mem_append_left _ hb)
        omega
      intro d hd
      rcases List.mem_cons.mp hd with rfl | hd
      · exact hc
      · exact ih (fun b hb => h b (List.mem_append_right _ hb)) d hd

end Utf8
