import Torpor.Durability.Oracles

/-!
# The Spelling of a Hash

`hex_encode` writes a hash with 64 digits in lower case, and `hex_decode_32` reads it back. Each
pair of characters is read by `u8::from_str_radix`, which takes a plus sign before a digit: that
is the only text read as a hash that is not one of 64 digits.

## Main results

* `hexDecode32_iff_not_signed`: a text is read as the hash that it spells exactly if it has no
  plus sign where one is read.
-/

namespace Torpor

open Hex (IsDigit)
open Utf8 (asciiByte)

/-! ### What is read -/

/-- Text of 64 hexadecimal digits. -/
def HexDigits (s : List Char) : Prop := s.length = 64 ∧ ∀ c ∈ s, IsDigit c

instance : DecidablePred HexDigits := fun s =>
  inferInstanceAs (Decidable (s.length = 64 ∧ ∀ c ∈ s, IsDigit c))

/-- Pairs of a digit, or a plus sign, and a digit. -/
def Readable : List Char → Prop
  | [] => True
  | [_] => False
  | c :: d :: rest => (IsDigit c ∨ c = '+') ∧ IsDigit d ∧ Readable rest

/-- Text of 32 such pairs with a plus sign in at least one of them. -/
def Signed (s : List Char) : Prop := s.length = 64 ∧ Readable s ∧ '+' ∈ s

/-- A pair is read if the first byte is a plus sign or a digit and the second one is a digit. -/
theorem u8FromHex_isSome {a b : UInt8} : (u8FromHex a b).isSome ↔
    (a = 0x2B ∨ (Hex.value a).isSome) ∧ (Hex.value b).isSome := by
  simp only [u8FromHex]
  by_cases hplus : a = 0x2B
  · simp [hplus]
  · cases hhigh : Hex.value a with
    | none => simp [hplus]
    | some high => cases Hex.value b <;> simp [hplus]

/-- Two bytes that are digits are read as the byte that they spell. -/
theorem u8FromHex_spells {c d : Char} (hc : c.toNat < 128) (hd : d.toNat < 128)
    (hplus : c ≠ '+') {v : UInt8} (hv : u8FromHex (asciiByte c) (asciiByte d) = some v) :
    Hex.encode [v] = [c.toLower, d.toLower] := by
  rw [u8FromHex, if_neg fun h => hplus ((Hex.asciiByte_eq_plus hc).mp h)] at hv
  obtain ⟨high, hhigh, hv⟩ := Option.bind_eq_some_iff.mp hv
  obtain ⟨low, hlow, hv⟩ := Option.bind_eq_some_iff.mp hv
  obtain ⟨hhigh16, hdigit⟩ := (Hex.value_asciiByte hc).2 high hhigh
  obtain ⟨hlow16, hdigit'⟩ := (Hex.value_asciiByte hd).2 low hlow
  have htoNat : v.toNat = high * 16 + low := by
    rw [← Option.some.inj hv, UInt8.toNat_ofNat']
    omega
  have hdiv : (high * 16 + low) / 16 = high := by omega
  have hmod : (high * 16 + low) % 16 = low := by omega
  rw [Hex.encode_cons, htoNat, hdiv, hmod, hdigit, hdigit']
  rfl

theorem hexChunks_isSome {k : ℕ} {s : List Char} (hlength : s.length = 2 * k)
    (hascii : ∀ c ∈ s, c.toNat < 128) : (hexChunks (s.map asciiByte)).isSome ↔ Readable s := by
  induction k generalizing s with
  | zero =>
      obtain rfl := List.eq_nil_of_length_eq_zero (hlength.trans (Nat.mul_zero 2))
      simp [hexChunks, Readable]
  | succ k ih =>
      obtain _ | ⟨c, _ | ⟨d, s⟩⟩ := s
      · simp at hlength
      · rw [List.length_singleton] at hlength
        omega
      · rw [List.length_cons, List.length_cons] at hlength
        have hc := hascii c (by simp)
        have hd := hascii d (by simp)
        have hpair := u8FromHex_isSome (a := asciiByte c) (b := asciiByte d)
        rw [Hex.asciiByte_eq_plus hc, (Hex.value_asciiByte hc).1, (Hex.value_asciiByte hd).1,
          or_comm] at hpair
        have hrest := ih (s := s) (by omega) fun e he => hascii e (by simp [he])
        rw [List.map_cons, List.map_cons, hexChunks, Readable, ← and_assoc, ← hpair, ← hrest]
        cases u8FromHex (asciiByte c) (asciiByte d) <;>
          cases hexChunks (s.map asciiByte) <;> simp

theorem hexChunks_spells {s : List Char} (hascii : ∀ c ∈ s, c.toNat < 128) (hplus : '+' ∉ s)
    (hread : Readable s) {bs : Bytes} (hbs : hexChunks (s.map asciiByte) = some bs) :
    Hex.encode bs = s.map Char.toLower := by
  induction s using Readable.induct generalizing bs with
  | case1 =>
      obtain rfl := Option.some.inj hbs
      rfl
  | case2 c => exact hread.elim
  | case3 c d s ih =>
      obtain ⟨byte, hbyte, hbs⟩ := Option.bind_eq_some_iff.mp hbs
      obtain ⟨bytes, hbytes, hbs⟩ := Option.bind_eq_some_iff.mp hbs
      obtain rfl := Option.some.inj hbs
      have hpair := u8FromHex_spells (hascii c (by simp)) (hascii d (by simp))
        (by rintro rfl; simp at hplus) hbyte
      have hrest := ih (fun e he => hascii e (by simp [he])) (fun h => hplus (by simp [h]))
        hread.2.2 hbytes
      calc Hex.encode (byte :: bytes) = Hex.encode [byte] ++ Hex.encode bytes :=
            @List.flatMap_append _ _ [byte] bytes _
        _ = (c :: d :: s).map Char.toLower := by rw [hpair, hrest]; rfl

/-- What is read is of ASCII. -/
theorem lt_of_hexChunks {l bs : Bytes} (h : hexChunks l = some bs) :
    (∀ b ∈ l, b.toNat < 128) ∧ ∀ k, l.length = 2 * k → bs.length = k := by
  induction l using hexChunks.induct generalizing bs with
  | case1 =>
      obtain rfl := Option.some.inj h
      simp
  | case2 a =>
      obtain ⟨v, hv, -⟩ := Option.map_eq_some_iff.mp h
      refine ⟨fun b hb => ?_, fun k hk => ?_⟩
      · rw [List.mem_singleton.mp hb]
        exact Hex.lt_of_value (by rw [hv]; rfl)
      · rw [List.length_singleton] at hk
        omega
  | case3 a b rest ih =>
      obtain ⟨byte, hbyte, h⟩ := Option.bind_eq_some_iff.mp h
      obtain ⟨bytes, hbytes, h⟩ := Option.bind_eq_some_iff.mp h
      obtain rfl := Option.some.inj h
      obtain ⟨ha, hb⟩ := u8FromHex_isSome.mp (Option.isSome_of_eq_some hbyte)
      obtain ⟨hrest, hlength⟩ := ih hbytes
      refine ⟨fun c hc => ?_, fun k hk => ?_⟩
      · rcases List.mem_cons.mp hc with rfl | hc
        · exact ha.elim (by rintro rfl; decide) Hex.lt_of_value
        · rcases List.mem_cons.mp hc with rfl | hc
          · exact Hex.lt_of_value hb
          · exact hrest c hc
      · rw [List.length_cons, List.length_cons] at hk
        have := hlength (k - 1) (by omega)
        rw [List.length_cons]
        omega

theorem Readable.ascii {s : List Char} (h : Readable s) : ∀ c ∈ s, c.toNat < 128 := by
  induction s using Readable.induct with
  | case1 => simp
  | case2 c => exact h.elim
  | case3 c d s ih =>
      intro e he
      rcases List.mem_cons.mp he with rfl | he
      · exact h.1.elim Hex.lt_of_isDigit (by rintro rfl; decide)
      · rcases List.mem_cons.mp he with rfl | he
        · exact Hex.lt_of_isDigit h.2.1
        · exact ih h.2.2 e he

theorem HexDigits.readable {s : List Char} {k : ℕ} (hlength : s.length = 2 * k)
    (hdigits : ∀ c ∈ s, IsDigit c) : Readable s := by
  induction k generalizing s with
  | zero =>
      obtain rfl := List.eq_nil_of_length_eq_zero (hlength.trans (Nat.mul_zero 2))
      trivial
  | succ k ih =>
      match s with
      | [] => trivial
      | [_] =>
          rw [List.length_singleton] at hlength
          omega
      | c :: d :: s =>
          rw [List.length_cons, List.length_cons] at hlength
          exact ⟨.inl (hdigits c (by simp)), hdigits d (by simp),
            ih (by omega) fun e he => hdigits e (by simp [he])⟩

theorem Readable.digits {s : List Char} (h : Readable s) (hplus : '+' ∉ s) :
    ∀ c ∈ s, IsDigit c := by
  induction s using Readable.induct with
  | case1 => simp
  | case2 c => exact h.elim
  | case3 c d s ih =>
      intro e he
      rcases List.mem_cons.mp he with rfl | he
      · exact h.1.resolve_right (by rintro rfl; simp at hplus)
      · rcases List.mem_cons.mp he with rfl | he
        · exact h.2.1
        · exact ih h.2.2 (fun h => hplus (by simp [h])) e he

/-- `hex_decode_32` reads 32 pairs. -/
theorem hexDecode32_eq_some {s : List Char} {h : Digest} (hs : hexDecode32 s = some h) :
    (s.length = 64 ∧ Readable s) ∧ hexChunks (s.map asciiByte) = some h.val := by
  rw [hexDecode32] at hs
  split_ifs at hs with hlength
  obtain ⟨bs, hbs, hs⟩ := Option.bind_eq_some_iff.mp hs
  split_ifs at hs with h32
  obtain rfl := Option.some.inj hs
  have hascii := Utf8.ascii_of_encode (lt_of_hexChunks hbs).1
  have hencode := Utf8.encode_of_ascii hascii
  rw [hencode, List.length_map, not_not] at hlength
  rw [hencode] at hbs
  exact ⟨⟨hlength, (hexChunks_isSome (k := 32) hlength hascii).mp (Option.isSome_of_eq_some hbs)⟩,
    hbs⟩

theorem hexDecode32_isSome {s : List Char} :
    (hexDecode32 s).isSome ↔ s.length = 64 ∧ Readable s := by
  constructor
  · intro hs
    obtain ⟨h, hs⟩ := Option.isSome_iff_exists.mp hs
    exact (hexDecode32_eq_some hs).1
  · rintro ⟨hlength, hread⟩
    have hencode := Utf8.encode_of_ascii hread.ascii
    obtain ⟨bs, hbs⟩ := Option.isSome_iff_exists.mp
      ((hexChunks_isSome (k := 32) hlength hread.ascii).mpr hread)
    have h32 : bs.length = 32 := (lt_of_hexChunks hbs).2 32 (by rw [List.length_map, hlength])
    have h64 : ¬(s.map asciiByte).length ≠ 64 := by simp [hlength]
    rw [hexDecode32, hencode, if_neg h64, hbs, Option.bind_some, dif_pos h32]
    rfl

/-! ### The accepted language -/

/-- The text is read exactly if it is of 64 hexadecimal digits, and then as the hash that it
spells. -/
def ReadAsSpelled (s : List Char) : Prop :=
  ((hexDecode32 s).isSome ↔ HexDigits s) ∧
    ∀ h, hexDecode32 s = some h → hexEncode h.val = s.map Char.toLower

/-- A text is read as the hash that it spells exactly if no pair of it has a plus sign where one is
read; and what `hex_encode` writes is read back. -/
theorem hexDecode32_iff_not_signed (s : List Char) (hash : Digest) :
    (ReadAsSpelled s ↔ ¬Signed s) ∧ hexDecode32 (hexEncode hash.val) = some hash := by
  refine ⟨⟨?_, fun hsigned => ⟨⟨fun hs => ?_, fun hs => ?_⟩, fun h hs => ?_⟩⟩,
    hexDecode32_hexEncode hash⟩
  · rintro ⟨hiff, -⟩ ⟨hlength, hread, hplus⟩
    have hdigits := hiff.mp (hexDecode32_isSome.mpr ⟨hlength, hread⟩)
    exact Hex.not_isDigit_plus (hdigits.2 _ hplus)
  · obtain ⟨hlength, hread⟩ := hexDecode32_isSome.mp hs
    exact ⟨hlength, hread.digits fun hplus => hsigned ⟨hlength, hread, hplus⟩⟩
  · exact hexDecode32_isSome.mpr ⟨hs.1, HexDigits.readable (k := 32) hs.1 hs.2⟩
  · obtain ⟨⟨hlength, hread⟩, hchunks⟩ := hexDecode32_eq_some hs
    exact hexChunks_spells hread.ascii (fun hplus => hsigned ⟨hlength, hread, hplus⟩) hread hchunks

/-- Pairs of a plus sign and a digit. -/
def plusPairs (n : ℕ) : List Char := (List.replicate n ['+', '0']).flatten

theorem readable_plusPairs (n : ℕ) : Readable (plusPairs n) := by
  induction n with
  | zero => trivial
  | succ n ih => exact ⟨.inr rfl, by decide, ih⟩

/-- Such pairs are read as a hash. -/
theorem plusPairs_read : ¬ReadAsSpelled (plusPairs 32) := by
  intro h
  have hsome := hexDecode32_isSome.mpr ⟨rfl, readable_plusPairs 32⟩
  exact Hex.not_isDigit_plus ((h.1.mp hsome).2 _ (by simp [plusPairs]))

end Torpor
