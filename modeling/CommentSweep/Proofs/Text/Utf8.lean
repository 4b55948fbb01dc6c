import CommentSweep.Text.Utf8

/-!
What encoding gives can be decoded again. A character comes back from its bytes one step at a time:
the lead byte opens a sequence, and every continuation byte adds six bits to it.
-/

namespace CommentSweep.Text.Utf8

theorem decodeFrom_ascii {n : Nat} (h : n < 0x80) (start : Nat) (out : Text) (rest : List UInt8) :
    decodeFrom start out none (UInt8.ofNat n :: rest) =
      decodeFrom (start + 1) (Char.ofNat n :: out) none rest := by
  rw [decodeFrom, UInt8.toNat_ofNat_of_lt' (Nat.lt_trans h (by decide)), if_pos h]

theorem decodeFrom_lead {n missing low high : Nat} (hlow : 0x80 ≤ n) (hhigh : n < 256)
    (h : continuation? n = some (missing, low, high)) (start : Nat) (out : Text)
    (rest : List UInt8) :
    decodeFrom start out none (UInt8.ofNat n :: rest) =
      decodeFrom start out (some ⟨UInt8.ofNat n, missing, low, high, leadBits n, 1⟩) rest := by
  rw [decodeFrom, UInt8.toNat_ofNat_of_lt' hhigh, if_neg (Nat.not_lt.mpr hlow), h]

section

variable {p : Pending} {n : Nat} (hlow : p.low ≤ n) (hhigh : n ≤ p.high) (hbyte : n < 256)

include hlow hhigh hbyte

theorem decodeFrom_more (hmissing : 1 < p.missing) (start : Nat) (out : Text) (rest : List UInt8) :
    decodeFrom start out (some p) (UInt8.ofNat n :: rest) =
      decodeFrom start out
        (some ⟨p.lead, p.missing - 1, 0x80, 0xBF, p.code * 0x40 + n % 0x40, p.length + 1⟩)
        rest := by
  have hrange : ¬(decide (n < p.low) || decide (p.high < n)) = true := by
    simp only [Bool.or_eq_true, decide_eq_true_eq]
    omega
  rw [decodeFrom, UInt8.toNat_ofNat_of_lt' hbyte, if_neg hrange, if_neg (Nat.not_le.mpr hmissing)]

theorem decodeFrom_last (hmissing : p.missing ≤ 1) (start : Nat) (out : Text)
    (rest : List UInt8) :
    decodeFrom start out (some p) (UInt8.ofNat n :: rest) =
      decodeFrom (start + p.length + 1) (Char.ofNat (p.code * 0x40 + n % 0x40) :: out) none
        rest := by
  have hrange : ¬(decide (n < p.low) || decide (p.high < n)) = true := by
    simp only [Bool.or_eq_true, decide_eq_true_eq]
    omega
  rw [decodeFrom, UInt8.toNat_ofNat_of_lt' hbyte, if_neg hrange, if_pos hmissing]

end

theorem continuation?_two {v : Nat} (hlow : 0x80 ≤ v) (hhigh : v < 0x800) :
    continuation? (v / 64 % 32 + 192) = some (1, 0x80, 0xBF) := by
  have hrange :
      (decide (0xC2 ≤ v / 64 % 32 + 192) && decide (v / 64 % 32 + 192 ≤ 0xDF)) = true := by
    simp only [Bool.and_eq_true, decide_eq_true_eq]
    omega
  rw [continuation?, if_pos hrange]

theorem continuation?_three {v : Nat} (hlow : 0x800 ≤ v) (hhigh : v < 0x10000)
    (hscalar : v < 0xD800 ∨ 0xDFFF < v) :
    ∃ low high, continuation? (v / 4096 % 16 + 224) = some (2, low, high) ∧
      low ≤ v / 64 % 64 + 128 ∧ v / 64 % 64 + 128 ≤ high := by
  unfold continuation?
  simp only [Bool.and_eq_true, decide_eq_true_eq, beq_iff_eq]
  split
  · omega
  · split
    · exact ⟨0xA0, 0xBF, rfl, by omega, by omega⟩
    · split
      · exact ⟨0x80, 0x9F, rfl, by omega, by omega⟩
      · split
        · exact ⟨0x80, 0xBF, rfl, by omega, by omega⟩
        · omega

theorem continuation?_four {v : Nat} (hlow : 0x10000 ≤ v) (hhigh : v < 0x110000) :
    ∃ low high, continuation? (v / 262144 % 8 + 240) = some (3, low, high) ∧
      low ≤ v / 4096 % 64 + 128 ∧ v / 4096 % 64 + 128 ≤ high := by
  unfold continuation?
  simp only [Bool.and_eq_true, decide_eq_true_eq, beq_iff_eq]
  split
  · omega
  · split
    · omega
    · split
      · omega
      · split
        · omega
        · split
          · exact ⟨0x90, 0xBF, rfl, by omega, by omega⟩
          · split
            · exact ⟨0x80, 0x8F, rfl, by omega, by omega⟩
            · split
              · exact ⟨0x80, 0xBF, rfl, by omega, by omega⟩
              · omega

theorem leadBits_two {v : Nat} (h : v < 0x800) : leadBits (v / 64 % 32 + 192) = v / 64 := by
  rw [leadBits, if_pos (by omega)]
  omega

theorem leadBits_three {v : Nat} (h : v < 0x10000) :
    leadBits (v / 4096 % 16 + 224) = v / 4096 := by
  rw [leadBits, if_neg (by omega), if_pos (by omega)]
  omega

theorem leadBits_four {v : Nat} (h : v < 0x110000) :
    leadBits (v / 262144 % 8 + 240) = v / 262144 := by
  rw [leadBits, if_neg (by omega), if_neg (by omega)]
  omega

theorem decodeFrom_two {v : Nat} (hlow : 0x80 ≤ v) (hhigh : v < 0x800) (start : Nat) (out : Text)
    (rest : List UInt8) :
    decodeFrom start out none
        (UInt8.ofNat (v / 64 % 32 + 192) :: UInt8.ofNat (v % 64 + 128) :: rest) =
      decodeFrom (start + 2) (Char.ofNat v :: out) none rest := by
  have hcode : v / 64 * 64 + (v % 64 + 128) % 64 = v := by omega
  rw [decodeFrom_lead (by omega) (by omega) (continuation?_two hlow hhigh),
    decodeFrom_last (by simp only; omega) (by simp only; omega) (by omega) (by simp),
    leadBits_two hhigh, hcode]

theorem decodeFrom_three {v : Nat} (hlow : 0x800 ≤ v) (hhigh : v < 0x10000)
    (hscalar : v < 0xD800 ∨ 0xDFFF < v) (start : Nat) (out : Text) (rest : List UInt8) :
    decodeFrom start out none
        (UInt8.ofNat (v / 4096 % 16 + 224) :: UInt8.ofNat (v / 64 % 64 + 128) ::
          UInt8.ofNat (v % 64 + 128) :: rest) =
      decodeFrom (start + 3) (Char.ofNat v :: out) none rest := by
  obtain ⟨low, high, hlead, hfirst, hlast⟩ := continuation?_three hlow hhigh hscalar
  have hcode : (v / 4096 * 64 + (v / 64 % 64 + 128) % 64) * 64 + (v % 64 + 128) % 64 = v := by
    omega
  rw [decodeFrom_lead (by omega) (by omega) hlead,
    decodeFrom_more hfirst hlast (by omega) (by simp),
    decodeFrom_last (by simp only; omega) (by simp only; omega) (by omega) (by simp),
    leadBits_three hhigh, hcode]

theorem decodeFrom_four {v : Nat} (hlow : 0x10000 ≤ v) (hhigh : v < 0x110000) (start : Nat)
    (out : Text) (rest : List UInt8) :
    decodeFrom start out none
        (UInt8.ofNat (v / 262144 % 8 + 240) :: UInt8.ofNat (v / 4096 % 64 + 128) ::
          UInt8.ofNat (v / 64 % 64 + 128) :: UInt8.ofNat (v % 64 + 128) :: rest) =
      decodeFrom (start + 4) (Char.ofNat v :: out) none rest := by
  obtain ⟨low, high, hlead, hfirst, hlast⟩ := continuation?_four hlow hhigh
  have hcode : ((v / 262144 * 64 + (v / 4096 % 64 + 128) % 64) * 64 +
      (v / 64 % 64 + 128) % 64) * 64 + (v % 64 + 128) % 64 = v := by
    omega
  rw [decodeFrom_lead (by omega) (by omega) hlead,
    decodeFrom_more hfirst hlast (by omega) (by simp),
    decodeFrom_more (by simp only; omega) (by simp only; omega) (by omega) (by simp),
    decodeFrom_last (by simp only; omega) (by simp only; omega) (by omega) (by simp),
    leadBits_four hhigh, hcode]

theorem scalar_bounds (c : Char) : c.toNat < 0xD800 ∨ 0xDFFF < c.toNat ∧ c.toNat < 0x110000 :=
  c.valid

theorem decodeFrom_encodeChar (c : Char) (start : Nat) (out : Text) (rest : List UInt8) :
    ∃ start', decodeFrom start out none (String.utf8EncodeChar c ++ rest) =
      decodeFrom start' (c :: out) none rest := by
  have hbounds := scalar_bounds c
  have hcode : c.val.toNat = c.toNat := rfl
  have hchar : Char.ofNat c.toNat = c := Char.ofNat_toNat c
  rw [String.utf8EncodeChar]
  simp only [hcode]
  generalize c.toNat = v at hbounds hchar ⊢
  subst hchar
  split
  · exact ⟨_, decodeFrom_ascii (by omega) start out rest⟩
  · split
    · exact ⟨_, decodeFrom_two (by omega) (by omega) start out rest⟩
    · split
      · exact ⟨_, decodeFrom_three (by omega) (by omega) (by omega) start out rest⟩
      · exact ⟨_, decodeFrom_four (by omega) (by omega) start out rest⟩

theorem decodeFrom_encode (t : Text) (start : Nat) (out : Text) :
    decodeFrom start out none (encode t) = .ok (out.reverse ++ t) := by
  induction t generalizing start out with
  | nil =>
      rw [List.append_nil]
      rfl
  | cons c t ih =>
      obtain ⟨start', hchar⟩ := decodeFrom_encodeChar c start out (encode t)
      rw [encode, List.flatMap_cons]
      refine hchar.trans ?_
      rw [ih, List.reverse_cons, List.append_assoc]
      rfl

@[simp] theorem decode_encode (t : Text) : decode (encode t) = .ok t :=
  decodeFrom_encode t 0 []

end CommentSweep.Text.Utf8
