import Coedit.Text.Percent

/-!
Text survives its percent-encoded form (`decode_encode`): the octets of each character lead the
decoder through the character and back to where it started, and an octet is read as it was
written, plain or escaped. The written form holds no character that separates the parts of a diff
or of a patch (`not_mem_encode`).
-/
namespace Coedit

namespace Utf8

theorem toNat_ofNat {n : Nat} (h : n < 256) : (UInt8.ofNat n).toNat = n := by
  simpa using Nat.mod_eq_of_lt h

/-- A first octet ends its character or begins one that the next octets continue. -/
theorem decodeFrom_opening {n : Nat} {p : Partial} (hn : n < 256) (h : opening n = some p)
    (start : Nat) (rest : Bytes) :
    decodeFrom start none (UInt8.ofNat n :: rest) =
      if p.owed = 0 then (decodeFrom (start + p.seen) none rest).map (Char.ofNat p.value :: ·)
      else decodeFrom start (some p) rest := by
  rw [decodeFrom]
  simp only [toNat_ofNat hn, h]

theorem decodeFrom_extend {n : Nat} {p q : Partial} (hn : n < 256) (h : p.extend n = some q)
    (start : Nat) (rest : Bytes) :
    decodeFrom start (some p) (UInt8.ofNat n :: rest) =
      if q.owed = 0 then (decodeFrom (start + q.seen) none rest).map (Char.ofNat q.value :: ·)
      else decodeFrom start (some q) rest := by
  rw [decodeFrom]
  simp only [toNat_ofNat hn, h]

theorem extend_of_bounds {j low high : Nat} (owed seen value : Nat) (hlow : low ≤ 0x80 + j)
    (hhigh : 0x80 + j ≤ high) :
    Partial.extend ⟨owed + 1, low, high, seen, value⟩ (0x80 + j) =
      some { owed, seen := seen + 1, value := value * 0x40 + j } := by
  rw [Partial.extend, if_pos ⟨hlow, hhigh⟩]
  simp only [Nat.add_sub_cancel, Nat.add_sub_cancel_left]

theorem extend_of_lt {j : Nat} (hj : j < 0x40) (owed seen value : Nat) :
    Partial.extend ⟨owed + 1, 0x80, 0xBF, seen, value⟩ (0x80 + j) =
      some { owed, seen := seen + 1, value := value * 0x40 + j } :=
  extend_of_bounds owed seen value (Nat.le_add_right ..) (by omega)

theorem opening_one {n : Nat} (h : n < 0x80) : opening n = some { owed := 0, value := n } := by
  rw [opening, if_pos h]

theorem opening_two {k : Nat} (hl : 2 ≤ k) (hk : k < 0x20) :
    opening (0xC0 + k) = some { owed := 1, value := k } := by
  rw [opening, if_neg (by omega), if_neg (by omega), if_pos (by omega), Nat.add_sub_cancel_left]

/-- Overlong forms and surrogates are kept out by the bounds of the second octet. -/
theorem opening_three {k j : Nat} (hk : k < 0x10) (hj : j < 0x40) (hlow : k = 0 → 0x20 ≤ j)
    (hhigh : k = 0xD → j < 0x20) :
    ∃ p, opening (0xE0 + k) = some p ∧ p.owed = 2 ∧
      p.extend (0x80 + j) = some { owed := 1, seen := 2, value := k * 0x40 + j } := by
  unfold opening
  rw [if_neg (by omega), if_neg (by omega), if_neg (by omega)]
  split
  · obtain rfl : k = 0 := by omega
    exact ⟨_, rfl, rfl, extend_of_bounds 1 1 0 (by omega) (by omega)⟩
  split
  · obtain rfl : k = 0xD := by omega
    exact ⟨_, rfl, rfl, extend_of_bounds 1 1 0xD (by omega) (by omega)⟩
  rw [if_pos (by omega), Nat.add_sub_cancel_left]
  exact ⟨_, rfl, rfl, extend_of_bounds 1 1 k (by omega) (by omega)⟩

/-- Overlong forms and values past the last character are kept out by the bounds of the second
octet. -/
theorem opening_four {k j : Nat} (hk : k < 5) (hj : j < 0x40) (hlow : k = 0 → 0x10 ≤ j)
    (hhigh : k = 4 → j < 0x10) :
    ∃ p, opening (0xF0 + k) = some p ∧ p.owed = 3 ∧
      p.extend (0x80 + j) = some { owed := 2, seen := 2, value := k * 0x40 + j } := by
  unfold opening
  rw [if_neg (by omega), if_neg (by omega), if_neg (by omega), if_neg (by omega),
    if_neg (by omega), if_neg (by omega)]
  split
  · obtain rfl : k = 0 := by omega
    exact ⟨_, rfl, rfl, extend_of_bounds 2 1 0 (by omega) (by omega)⟩
  split
  · rw [Nat.add_sub_cancel_left]
    exact ⟨_, rfl, rfl, extend_of_bounds 2 1 k (by omega) (by omega)⟩
  obtain rfl : k = 4 := by omega
  exact ⟨_, rfl, rfl, extend_of_bounds 2 1 4 (by omega) (by omega)⟩

/-- The octets of a character lead the decoder through it. -/
theorem decodeFrom_encodeChar (c : Char) (start : Nat) (rest : Bytes) :
    ∃ next, decodeFrom start none (encodeChar c ++ rest) =
      (decodeFrom next none rest).map (c :: ·) := by
  have hvalid : c.toNat < 0xD800 ∨ 0xDFFF < c.toNat ∧ c.toNat < 0x110000 := c.valid
  have hc : Char.ofNat c.toNat = c := Char.ofNat_toNat c
  unfold encodeChar
  generalize c.toNat = n at hvalid hc ⊢
  subst hc
  dsimp only
  split
  · rename_i h
    refine ⟨start + 1, ?_⟩
    rw [List.singleton_append, decodeFrom_opening (by omega) (opening_one h), if_pos rfl]
  split
  · refine ⟨start + 2, ?_⟩
    have hn : n / 0x40 * 0x40 + n % 0x40 = n := Nat.div_add_mod' n 0x40
    simp only [List.cons_append, List.nil_append]
    rw [decodeFrom_opening (by omega) (opening_two (k := n / 0x40) (by omega) (by omega)),
      if_neg (by simp), decodeFrom_extend (by omega) (extend_of_lt (by omega) 0 1 _),
      if_pos rfl, hn]
  split
  · refine ⟨start + 3, ?_⟩
    have hn : (n / 0x1000 * 0x40 + n / 0x40 % 0x40) * 0x40 + n % 0x40 = n := by omega
    obtain ⟨p, hp, howed, hq⟩ := opening_three (k := n / 0x1000) (j := n / 0x40 % 0x40)
      (by omega) (by omega) (by omega) (by omega)
    simp only [List.cons_append, List.nil_append]
    rw [decodeFrom_opening (by omega) hp, if_neg (by omega), decodeFrom_extend (by omega) hq,
      if_neg (by simp), decodeFrom_extend (by omega) (extend_of_lt (by omega) 0 2 _),
      if_pos rfl, hn]
  · refine ⟨start + 4, ?_⟩
    have hn : ((n / 0x40000 * 0x40 + n / 0x1000 % 0x40) * 0x40 + n / 0x40 % 0x40) * 0x40 +
        n % 0x40 = n := by omega
    obtain ⟨p, hp, howed, hq⟩ := opening_four (k := n / 0x40000) (j := n / 0x1000 % 0x40)
      (by omega) (by omega) (by omega) (by omega)
    simp only [List.cons_append, List.nil_append]
    rw [decodeFrom_opening (by omega) hp, if_neg (by omega), decodeFrom_extend (by omega) hq,
      if_neg (by simp), decodeFrom_extend (by omega) (extend_of_lt (by omega) 1 2 _),
      if_neg (by simp), decodeFrom_extend (by omega) (extend_of_lt (by omega) 0 3 _),
      if_pos rfl, hn]

theorem decodeFrom_encode (text : Text) (start : Nat) :
    decodeFrom start none (encode text) = .ok text := by
  induction text generalizing start with
  | nil => rfl
  | cons c cs ih =>
    obtain ⟨next, hnext⟩ := decodeFrom_encodeChar c start (encode cs)
    rw [encode_cons, hnext, ih next]
    rfl

theorem decode_encode (text : Text) : decode (encode text) = .ok text := decodeFrom_encode text 0

theorem encodeChar_ne_nil (c : Char) : encodeChar c ≠ [] := by
  unfold encodeChar
  dsimp only
  split
  · simp
  split
  · simp
  split <;> simp

end Utf8

namespace Percent

theorem not_isPlain : ∀ n < 0x80, isPlain (UInt8.ofNat (0x80 + n)) = false := by decide +kernel

/-- A plain octet is ASCII, and no percent sign. -/
theorem lt_of_isPlain {b : UInt8} (h : isPlain b = true) :
    b.toNat < 0x80 ∧ Char.ofNat b.toNat ≠ '%' := by
  refine ⟨Nat.not_le.mp fun hle => ?_, fun he => ?_⟩
  · have hb : b.toNat < 256 := b.toNat_lt_size
    have hplain := not_isPlain (b.toNat - 0x80) (by omega)
    rw [Nat.add_sub_cancel' hle, UInt8.ofNat_toNat, h] at hplain
    cases hplain
  · rw [isPlain, he] at h
    revert h
    decide

theorem toNat_charOfNat : ∀ n < 0x80, (Char.ofNat n).toNat = n := by decide

theorem value?_hexDigit : ∀ n < 16, Hex.value? (hexDigit n) = some n := by decide

theorem octet?_hexDigit (b : UInt8) :
    Hex.octet? (hexDigit (b.toNat / 16)) (hexDigit (b.toNat % 16)) = some b := by
  have hb : b.toNat < 256 := b.toNat_lt_size
  have hs : b.toNat / 16 * 16 + b.toNat % 16 = b.toNat := Nat.div_add_mod' _ 16
  simp only [Hex.octet?, value?_hexDigit _ (show b.toNat / 16 < 16 by omega),
    value?_hexDigit _ (show b.toNat % 16 < 16 by omega), Option.bind_eq_bind, Option.bind_some, hs,
    UInt8.ofNat_toNat]

theorem octets_cons_of_ne {c : Char} (h : c ≠ '%') (rest : Text) :
    octets (c :: rest) = Utf8.encodeChar c ++ octets rest := by
  rw [octets]
  rintro high low rest rfl
  exact absurd rfl h

theorem octets_cons_of_octet? {high low : Char} {b : UInt8} (h : Hex.octet? high low = some b)
    (rest : Text) : octets ('%' :: high :: low :: rest) = b :: octets rest := by
  simp [octets, h]

/-- An octet is read as it was written. -/
theorem octets_escape_append (b : UInt8) (rest : Text) :
    octets (escape b ++ rest) = b :: octets rest := by
  rw [escape]
  split
  · rename_i hplain
    obtain ⟨hlt, hne⟩ := lt_of_isPlain hplain
    rw [List.singleton_append, octets_cons_of_ne hne, Utf8.encodeChar, toNat_charOfNat _ hlt,
      if_pos hlt, UInt8.ofNat_toNat]
    rfl
  · exact octets_cons_of_octet? (octet?_hexDigit b) rest

theorem octets_flatMap_escape (bytes : Bytes) : octets (bytes.flatMap escape) = bytes := by
  induction bytes with
  | nil => rfl
  | cons b bytes ih => rw [List.flatMap_cons, octets_escape_append, ih]

theorem decode_encode (text : Text) : decode (encode text) = .ok text := by
  rw [decode, encode, octets_flatMap_escape, Utf8.decode_encode]

/-- The characters that separate the parts of diffs and patches. -/
def separators : List Char := [':', ',', '\n']

/-- Separators are written with a percent sign. -/
theorem not_mem_escape {c : Char} (hc : c ∈ separators) (b : UInt8) : c ∉ escape b := by
  have hdigit : ∀ n < 16, hexDigit n ∉ separators := by decide
  have hpercent : '%' ∉ separators := by decide
  have hb : b.toNat < 256 := b.toNat_lt_size
  unfold escape
  split
  · rename_i hplain
    rw [List.mem_singleton]
    intro he
    rw [isPlain, ← he] at hplain
    revert hc hplain
    simp only [separators, List.mem_cons, List.not_mem_nil, or_false]
    rintro (rfl | rfl | rfl) <;> decide
  · simp only [List.mem_cons, List.not_mem_nil, or_false, not_or]
    exact ⟨ne_of_mem_of_not_mem hc hpercent, ne_of_mem_of_not_mem hc (hdigit _ (by omega)),
      ne_of_mem_of_not_mem hc (hdigit _ (by omega))⟩

theorem not_mem_encode {c : Char} (hc : c ∈ separators) (text : Text) : c ∉ encode text := by
  intro h
  obtain ⟨b, -, hb⟩ := List.mem_flatMap.mp h
  exact not_mem_escape hc b hb

theorem encode_ne_nil {text : Text} (h : text ≠ []) : encode text ≠ [] := by
  obtain ⟨c, cs, rfl⟩ := List.exists_cons_of_ne_nil h
  obtain ⟨b, bytes, hb⟩ := List.exists_cons_of_ne_nil (Utf8.encodeChar_ne_nil c)
  rw [encode_cons, hb, List.flatMap_cons, escape]
  split <;> simp

end Percent

end Coedit
