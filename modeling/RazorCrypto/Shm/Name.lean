import Mathlib.Data.List.Basic
import Mathlib.Data.List.Induction
import Mathlib.Data.List.TakeWhile
import Mathlib.Data.Nat.Digits.Defs

/-!
# Instrument names and their hash

Names are byte strings: a `std::string` may hold any bytes, a `const char*` ends at
its first zero byte. A record keeps a name in a fixed array filled by `strncpy` and
read back as a C string, so that only its first bytes survive the round trip.

`comHash` is the only key under which the stores find an instrument: a polynomial in
131 modulo `2 ^ 64` over the signed `char` values. On at most nine ASCII bytes the
polynomial stays below `2 ^ 64`, and a name can be read back from its digits; a common
ending can be cancelled because 131 is odd.
-/

namespace RazorCrypto.Shm

/-- The bytes of a name. -/
abbrev Name := List UInt8

/-- The bytes that `strlen`, `c_str` and `std::string(const char*)` see. -/
def cStr (s : Name) : Name := s.takeWhile (· != 0)

/-- `strncpy(dst, src, n)`: at most `n` bytes of the source's C string, padded with zeros
up to `n`; later bytes of the destination stay. -/
def strncpy (dst src : Name) (n : Nat) : Name :=
  (cStr src).take n ++ List.replicate (n - (cStr src).length) 0 ++ dst.drop n

theorem cStr_ne_zero {s : Name} {c : UInt8} (h : c ∈ cStr s) : c ≠ 0 := by
  simpa using List.mem_takeWhile_imp h

theorem cStr_of_ne_zero {s : Name} (h : ∀ c ∈ s, c ≠ 0) : cStr s = s := by
  rw [cStr, List.takeWhile_eq_self_iff]
  simpa using h

private theorem cStr_append_zeros {s : Name} (h : ∀ c ∈ s, c ≠ 0) (n : Nat) :
    cStr (s ++ List.replicate n 0) = s := by
  induction s with
  | nil => cases n <;> simp [cStr, List.replicate_succ]
  | cons c s ih =>
      have ne : c ≠ 0 := h c (by simp)
      have rest := ih fun d hd => h d (by simp [hd])
      simpa [cStr, ne] using rest

/-- What a zeroed array of `size` bytes gives back after `strncpy` of all but its last
byte: the name's C string, cut to fit. -/
theorem cStr_strncpy_zeros (src : Name) (size : Nat) :
    cStr (strncpy (List.replicate (size + 1) 0) src size) = (cStr src).take size := by
  have drop : (List.replicate (size + 1) (0 : UInt8)).drop size = List.replicate 1 0 := by
    rw [List.drop_replicate]
    congr 1
    omega
  rw [strncpy, drop, List.append_assoc, List.replicate_append_replicate]
  exact cStr_append_zeros (fun c h => cStr_ne_zero (List.mem_of_mem_take h)) _

/-- What a record keeps of a name: its C string, cut to the 15 bytes that fit in
`instrument_id`. -/
def stored (s : Name) : Name := (cStr s).take 15

theorem stored_of_short {s : Name} (nonzero : ∀ c ∈ s, c ≠ 0) (short : s.length ≤ 15) :
    stored s = s := by
  rw [stored, cStr_of_ne_zero nonzero, List.take_of_length_le short]

/-- A `char` as the hash uses it: signed, extended to 64 bits. -/
def charValue (c : UInt8) : UInt64 := c.toInt8.toInt64.toUInt64

/-- `md_shm_util::com_hash`. -/
def comHash (securityId : Name) : UInt64 :=
  securityId.foldl (fun ret c => ret * 131 + charValue c) 0

@[simp] theorem comHash_nil : comHash [] = 0 := rfl

theorem comHash_concat (s : Name) (c : UInt8) :
    comHash (s ++ [c]) = comHash s * 131 + charValue c := by
  simp [comHash]

/-- Hashing a concatenation shifts the hash of its first part. -/
theorem comHash_append (s t : Name) :
    comHash (s ++ t) = comHash s * 131 ^ t.length + comHash t := by
  induction t using List.reverseRecOn with
  | nil => simp
  | append_singleton t c ih =>
      rw [← List.append_assoc, comHash_concat, ih, comHash_concat, List.length_append,
        List.length_singleton]
      grind

/-- 131 is odd, so multiplication by it loses nothing modulo `2 ^ 64`. -/
private theorem mul_131_cancel {a b : UInt64} (h : a * 131 = b * 131) : a = b := by
  have inverse : (131 : UInt64) * 0x3e88cb3c9484e2b = 1 := by decide
  grind

private theorem mul_pow_131_cancel {a b : UInt64} (n : Nat) (h : a * 131 ^ n = b * 131 ^ n) :
    a = b := by
  induction n with
  | zero => simpa using h
  | succ n ih =>
      apply ih
      apply mul_131_cancel
      grind

/-- A common ending does not matter for equality of hashes. -/
theorem comHash_append_right_iff (s t ending : Name) :
    comHash (s ++ ending) = comHash (t ++ ending) ↔ comHash s = comHash t := by
  rw [comHash_append, comHash_append]
  constructor
  · intro h
    exact mul_pow_131_cancel ending.length (by grind)
  · intro h
    rw [h]

/-- A common beginning does not matter either, between names of one length. -/
theorem comHash_append_left_iff (beginning : Name) {s t : Name} (len : s.length = t.length) :
    comHash (beginning ++ s) = comHash (beginning ++ t) ↔ comHash s = comHash t := by
  rw [comHash_append, comHash_append, len]
  constructor <;> intro h <;> grind

theorem charValue_toNat {c : UInt8} (ascii : c < 128) : (charValue c).toNat = c.toNat := by
  obtain ⟨b⟩ := c
  revert b
  decide +kernel

/-- On ASCII names the hash is the name read as a number in base 131. -/
theorem comHash_toNat {s : Name} (ascii : ∀ c ∈ s, c < 128) :
    (comHash s).toNat = Nat.ofDigits 131 (s.reverse.map UInt8.toNat) % 2 ^ 64 := by
  induction s using List.reverseRecOn with
  | nil => rfl
  | append_singleton s c ih =>
      have last : (charValue c).toNat = c.toNat := charValue_toNat (ascii c (by simp))
      have first := ih fun d h => ascii d (by simp [h])
      rw [comHash_concat, UInt64.toNat_add, UInt64.toNat_mul, first, last,
        List.reverse_append, List.reverse_singleton, List.singleton_append, List.map_cons,
        Nat.ofDigits_cons]
      have base : (131 : UInt64).toNat = 131 := rfl
      rw [base]
      omega

/-- Nine ASCII bytes never reach `2 ^ 64`. -/
theorem ofDigits_lt_of_short {s : Name} (ascii : ∀ c ∈ s, c < 128) (short : s.length ≤ 9) :
    Nat.ofDigits 131 (s.reverse.map UInt8.toNat) < 2 ^ 64 := by
  have digits : ∀ d ∈ s.reverse.map UInt8.toNat, d < 131 := by
    intro d member
    obtain ⟨c, inName, rfl⟩ := List.mem_map.mp member
    have bound : c.toNat < 128 := ascii c (by simpa using inName)
    omega
  have below := Nat.ofDigits_lt_base_pow_length (by decide : 1 < 131) digits
  have power : 131 ^ (s.reverse.map UInt8.toNat).length ≤ 131 ^ 9 :=
    Nat.pow_le_pow_right (by decide) (by simpa using short)
  have fits : 131 ^ 9 < 2 ^ 64 := by decide
  omega

/-- Names of at most nine ASCII bytes other than zero are determined by their hash. -/
theorem comHash_injective_of_short {s t : Name}
    (hs : ∀ c ∈ s, c ≠ 0 ∧ c < 128) (ht : ∀ c ∈ t, c ≠ 0 ∧ c < 128)
    (shortS : s.length ≤ 9) (shortT : t.length ≤ 9) (same : comHash s = comHash t) : s = t := by
  have digits : ∀ u : Name, (∀ c ∈ u, c ≠ 0 ∧ c < 128) →
      Nat.digits 131 (Nat.ofDigits 131 (u.reverse.map UInt8.toNat)) =
        u.reverse.map UInt8.toNat := by
    intro u hu
    apply Nat.digits_ofDigits 131 (by decide)
    · intro d member
      obtain ⟨c, inName, rfl⟩ := List.mem_map.mp member
      have bound : c.toNat < 128 := (hu c (by simpa using inName)).2
      omega
    · intro nonempty zero
      obtain ⟨c, inName, value⟩ := List.mem_map.mp (List.getLast_mem nonempty)
      refine (hu c (by simpa using inName)).1 (UInt8.toNat_inj.mp ?_)
      rw [value, zero]
      rfl
  have equal : Nat.ofDigits 131 (s.reverse.map UInt8.toNat) =
      Nat.ofDigits 131 (t.reverse.map UInt8.toNat) := by
    have values := congrArg UInt64.toNat same
    rwa [comHash_toNat fun c h => (hs c h).2, comHash_toNat fun c h => (ht c h).2,
      Nat.mod_eq_of_lt (ofDigits_lt_of_short (fun c h => (hs c h).2) shortS),
      Nat.mod_eq_of_lt (ofDigits_lt_of_short (fun c h => (ht c h).2) shortT)] at values
  have lists : s.reverse.map UInt8.toNat = t.reverse.map UInt8.toNat := by
    rw [← digits s hs, ← digits t ht, equal]
  have injective : Function.Injective UInt8.toNat := fun _ _ => UInt8.toNat_inj.mp
  exact List.reverse_injective (List.map_injective_iff.mpr injective lists)

end RazorCrypto.Shm
