import PikaScript.Data.Decimal
import PikaScript.Lib.Memory

/-! Decimal numbers as `PikaObj.c` writes them.

`fast_itoa` writes a number into a buffer of eleven bytes from the end on, two digits at a time
from a table of their pairs; of the last pair it leaves out a leading zero. -/
namespace PikaScript

/-- `str100p`. -/
def str100p : List (BitVec 16) :=
  [0x3030, 0x3130, 0x3230, 0x3330, 0x3430, 0x3530, 0x3630, 0x3730, 0x3830, 0x3930, 0x3031,
    0x3131, 0x3231, 0x3331, 0x3431, 0x3531, 0x3631, 0x3731, 0x3831, 0x3931, 0x3032, 0x3132,
    0x3232, 0x3332, 0x3432, 0x3532, 0x3632, 0x3732, 0x3832, 0x3932, 0x3033, 0x3133, 0x3233,
    0x3333, 0x3433, 0x3533, 0x3633, 0x3733, 0x3833, 0x3933, 0x3034, 0x3134, 0x3234, 0x3334,
    0x3434, 0x3534, 0x3634, 0x3734, 0x3834, 0x3934, 0x3035, 0x3135, 0x3235, 0x3335, 0x3435,
    0x3535, 0x3635, 0x3735, 0x3835, 0x3935, 0x3036, 0x3136, 0x3236, 0x3336, 0x3436, 0x3536,
    0x3636, 0x3736, 0x3836, 0x3936, 0x3037, 0x3137, 0x3237, 0x3337, 0x3437, 0x3537, 0x3637,
    0x3737, 0x3837, 0x3937, 0x3038, 0x3138, 0x3238, 0x3338, 0x3438, 0x3538, 0x3638, 0x3738,
    0x3838, 0x3938, 0x3039, 0x3139, 0x3239, 0x3339, 0x3439, 0x3539, 0x3639, 0x3739, 0x3839,
    0x3939]

/-- The bytes of a 16-bit value in memory, low byte first. -/
def bytes16 (value : BitVec 16) : Bytes := [value.extractLsb' 0 8, value.extractLsb' 8 8]

namespace Itoa

/-- A pointer into the buffer moved back. None in front of the buffer. -/
def retreat (p n : Nat) : Option Nat := if n ≤ p then some (p - n) else none

/-- The loop of `fast_itoa`: the buffer, the pointer and what is left of the number. -/
def loop (buf : Bytes) (p : Nat) (val : BitVec 32) : Option (Bytes × Nat × BitVec 32) :=
  if h : 100 ≤ val then do
    let p ← retreat p 2
    let buf ← Memory.store buf p (bytes16 (← str100p[(val - val / 100 * 100).toNat]?))
    loop buf p (val / 100)
  else some (buf, p, val)
termination_by val.toNat
decreasing_by
  have hval : 100 ≤ val.toNat := h
  have hdiv : (val / 100).toNat = val.toNat / 100 := rfl
  omega

end Itoa

open Itoa in
/-- `fast_itoa`: the buffer, and where in it the text begins. -/
def fastItoa (buf : Bytes) (val : BitVec 32) : Option (Bytes × Nat) := do
  let buf ← Memory.store buf 10 [0]
  let (buf, p, val) ← loop buf 10 val
  let p ← retreat p 2
  let buf ← Memory.store buf p (bytes16 (← str100p[val.toNat]?))
  return (buf, if val < 10 then p + 1 else p)

namespace Itoa

/-- The two digits of a number below a hundred. -/
def pair (r : Nat) : CString := [digitChar (r / 10), digitChar (r % 10)]

theorem str100p_eq : ∀ r < 100, (str100p[r]?).map bytes16 = some (pair r) := by decide +kernel

/-- A pair is written in front of what is there. -/
theorem store_pair {buf tail : Bytes} {p r : Nat} (hr : r < 100)
    (hbuf : buf.drop (p + 2) = tail) (hlength : p + 2 ≤ buf.length) :
    ∃ buf', ((str100p[r]?).bind fun value => Memory.store buf p (bytes16 value)) = some buf' ∧
      buf'.drop p = pair r ++ tail ∧ buf'.length = buf.length := by
  obtain ⟨value, hvalue, hpair⟩ := Option.map_eq_some_iff.mp (str100p_eq r hr)
  have htwo : (pair r).length = 2 := rfl
  refine ⟨buf.take p ++ pair r ++ buf.drop (p + 2), ?_, ?_, ?_⟩
  · rw [hvalue, Option.bind_some, hpair, Memory.store, htwo, if_pos hlength]
  · rw [List.append_assoc, List.drop_left' (List.length_take_of_le (by omega)), hbuf]
  · rw [List.length_append, List.length_append, List.length_take_of_le (by omega), htwo,
      List.length_drop]
    omega

/-- The text of a number of three digits or more ends in a pair. -/
theorem decimal_pair {n : Nat} (h : 100 ≤ n) : decimal n = decimal (n / 100) ++ pair (n % 100) := by
  have hpos : n / 100 ≠ 0 := by omega
  have hten : n / 10 / 10 = n / 100 := Nat.div_div_eq_div_mul n 10 10
  have hlow : n % 10 = n % 100 % 10 := by omega
  have hhigh : n / 10 % 10 = n % 100 / 10 := by omega
  rw [decimal, if_neg (by omega), decimal, if_neg hpos, Nat.digits_def' (by decide) (by omega),
    Nat.digits_def' (by decide) (by omega), hten, hlow, hhigh]
  simp [pair]

/-- And that of a smaller one is a pair, or the second digit of one. -/
theorem decimal_small : ∀ n < 100, decimal n = if n < 10 then (pair n).tail else pair n := by
  intro n hn
  by_cases hten : n < 10
  · rw [if_pos hten, decimal]
    split
    · subst n
      rfl
    · rw [Nat.digits_of_lt 10 n ‹_› hten, pair, Nat.mod_eq_of_lt hten]
      rfl
  · have hlow : n / 10 < 10 := by omega
    have hzero : n / 10 ≠ 0 := by omega
    rw [if_neg hten, decimal, if_neg (by omega), Nat.digits_def' (by decide) (by omega),
      Nat.digits_of_lt 10 _ hzero hlow]
    rfl

/-- **The loop writes all pairs but the first.** -/
theorem loop_eq {k : Nat} {buf tail : Bytes} {val : BitVec 32} (hval : val.toNat < 100 ^ (k + 1))
    (hbuf : buf.drop (2 * k + 2) = tail) (hlength : 2 * k + 2 ≤ buf.length) :
    ∃ buf' j front val', loop buf (2 * k + 2) val = some (buf', 2 * j + 2, val') ∧
      j ≤ k ∧ val'.toNat < 100 ∧ buf'.drop (2 * j + 2) = front ++ tail ∧
      buf'.length = buf.length ∧ decimal val.toNat = decimal val'.toNat ++ front := by
  induction k generalizing buf tail val with
  | zero =>
    have hsmall : ¬100 ≤ val := by
      show ¬100 ≤ val.toNat
      omega
    rw [loop, dif_neg hsmall]
    exact ⟨buf, 0, [], val, rfl, le_rfl, hval, hbuf, rfl, (List.append_nil _).symm⟩
  | succ k ih =>
    by_cases hlarge : 100 ≤ val
    · have hle : 100 ≤ val.toNat := hlarge
      have hdiv : (val / 100).toNat = val.toNat / 100 := rfl
      have hrest : (val - val / 100 * 100).toNat = val.toNat % 100 := by
        have hmul : (val / 100 * 100).toNat = val.toNat / 100 * 100 := by
          have hlt := val.isLt
          have hhundred : (100 : BitVec 32).toNat = 100 := rfl
          rw [BitVec.toNat_mul, hdiv, hhundred]
          omega
        have hsub : val / 100 * 100 ≤ val := by
          show (val / 100 * 100).toNat ≤ val.toNat
          omega
        rw [BitVec.toNat_sub_of_le hsub, hmul]
        omega
      have hmod : val.toNat % 100 < 100 := Nat.mod_lt _ (by decide)
      have htwo : 2 * (k + 1) + 2 - 2 = 2 * k + 2 := by omega
      obtain ⟨mid, hwrite, hmid, hsame⟩ := @store_pair buf tail (2 * k + 2) _ hmod hbuf hlength
      have hless : (val / 100).toNat < 100 ^ (k + 1) := by
        rw [hdiv]
        exact Nat.div_lt_of_lt_mul (by rwa [← Nat.pow_succ'])
      obtain ⟨buf', j, front, val', hloop, hj, hval', hbuf', hkeep, hdecimal⟩ :=
        ih hless hmid (by omega)
      refine ⟨buf', j, front ++ pair (val.toNat % 100), val', ?_, by omega, hval', ?_,
        hkeep.trans hsame, ?_⟩
      · rw [loop, dif_pos hlarge, retreat, if_pos (by omega), htwo, hrest]
        obtain ⟨value, hvalue, hstore⟩ := Option.bind_eq_some_iff.mp hwrite
        simp only [Option.bind_eq_bind, Option.bind_some, hvalue, hstore]
        exact hloop
      · rw [hbuf', List.append_assoc]
      · rw [decimal_pair hle, ← hdiv, hdecimal, List.append_assoc]
    · have hsmall : val.toNat < 100 := Nat.lt_of_not_le hlarge
      rw [loop, dif_neg hlarge]
      exact ⟨buf, k + 1, [], val, rfl, le_rfl, hsmall, hbuf, rfl, (List.append_nil _).symm⟩

/-- **The text that is written.** -/
theorem fastItoa_eq {buf : Bytes} (h : 11 ≤ buf.length) (val : BitVec 32) :
    ∃ buf' p, fastItoa buf val = some (buf', p) ∧ buf'.length = buf.length ∧
      buf'.drop p = decimal val.toNat ++ 0 :: buf.drop 11 := by
  have hlength : (buf.take 10 ++ [0] ++ buf.drop 11).length = buf.length := by
    rw [List.length_append, List.length_append, List.length_take_of_le (by omega),
      List.length_drop, List.length_singleton]
    omega
  have htail : (buf.take 10 ++ [0] ++ buf.drop 11).drop (2 * 4 + 2) = 0 :: buf.drop 11 := by
    rw [List.append_assoc, List.drop_left' (List.length_take_of_le (by omega))]
    rfl
  have hzero : Memory.store buf 10 [0] = some (buf.take 10 ++ [0] ++ buf.drop 11) := if_pos h
  obtain ⟨mid, j, front, last, hloop, hj, hlast, hmid, hsame, hdecimal⟩ :=
    @loop_eq 4 _ _ val (val.isLt.trans (by decide)) htail (by omega)
  obtain ⟨buf', hwrite, hbuf', hkeep⟩ := @store_pair mid _ (2 * j) _ hlast hmid (by omega)
  obtain ⟨value, hvalue, hstore⟩ := Option.bind_eq_some_iff.mp hwrite
  refine ⟨buf', if last < 10 then 2 * j + 1 else 2 * j, ?_, hkeep.trans (hsame.trans hlength), ?_⟩
  · have hback : retreat (2 * j + 2) 2 = some (2 * j) := by
      rw [retreat, if_pos (by omega), Nat.add_sub_cancel]
    rw [fastItoa, hzero]
    simp only [Option.bind_eq_bind, Option.bind_some]
    rw [hloop]
    simp only [Option.bind_some, hback, hvalue, hstore]
    rfl
  · rw [hdecimal, decimal_small _ hlast, List.append_assoc]
    by_cases hten : last < 10
    · have hlt : last.toNat < 10 := hten
      rw [if_pos hten, if_pos hlt, ← List.drop_drop, hbuf']
      rfl
    · have hge : ¬last.toNat < 10 := hten
      rw [if_neg hten, if_neg hge, hbuf']

/-! ### The round trip -/

/-- The text that `fast_itoa` returns. -/
def text (buf : Bytes) (val : BitVec 32) : Option CString :=
  (fastItoa buf val).map fun r => (r.1.drop r.2).takeWhile (· != 0)

/-- A text of digits with the value of a number. -/
def Represents (text : CString) (n : Nat) : Prop :=
  ∃ ds : List Nat, ds ≠ [] ∧ (∀ d ∈ ds, d < 10) ∧ text = (ds.map digitChar).reverse ∧
    Nat.ofDigits 10 ds = n

/-- What the decimal text of a number is to be. -/
structure IsDecimal (text : CString) (n : Nat) : Prop where
  represents : Represents text n
  shortest : ∀ other, Represents other n → text.length ≤ other.length
  leading : text.head? = some 0x30 → n = 0 ∧ text = [0x30]

/-- What `fast_itoa` promises in a buffer. -/
structure Law (buf : Bytes) (val : BitVec 32) : Prop where
  /-- It stays inside the buffer, and in its first eleven bytes. -/
  inside : ∃ buf' p, fastItoa buf val = some (buf', p) ∧ buf'.length = buf.length ∧
    buf'.drop 11 = buf.drop 11
  /-- The text is the decimal one and is read back. -/
  trip : ∃ s, text buf val = some s ∧ IsDecimal s val.toNat ∧
    fastAtoi s = some (val.toNat : Int)
  /-- Different numbers have different texts. -/
  distinct : ∀ {buf' : Bytes} {val' : BitVec 32}, 11 ≤ buf'.length →
    text buf val = text buf' val' → val = val'

theorem represents_decimal (n : Nat) : Represents (decimal n) n := by
  unfold decimal
  split
  · subst n
    exact ⟨[0], List.cons_ne_nil _ _, by decide, rfl, rfl⟩
  · exact ⟨Nat.digits 10 n, Nat.digits_ne_nil_iff_ne_zero.mpr ‹_›,
      fun d hd => Nat.digits_lt_base (by decide) hd, rfl, Nat.ofDigits_digits 10 n⟩

theorem length_decimal_le {n k : Nat} (hk : 0 < k) (h : n < 10 ^ k) : (decimal n).length ≤ k := by
  unfold decimal
  split
  · exact hk
  · rw [List.length_reverse, List.length_map]
    exact (Nat.digits_length_le_iff (by decide) n).mpr h

theorem isDecimal_decimal (n : Nat) : IsDecimal (decimal n) n where
  represents := represents_decimal n
  shortest other hother := by
    obtain ⟨ds, hne, hds, rfl, rfl⟩ := hother
    rw [List.length_reverse, List.length_map]
    exact length_decimal_le (List.length_pos_iff.mpr hne)
      (Nat.ofDigits_lt_base_pow_length (by decide) hds)
  leading hhead := by
    by_cases hzero : n = 0
    · subst n
      exact ⟨rfl, rfl⟩
    · have hne : Nat.digits 10 n ≠ [] := Nat.digits_ne_nil_iff_ne_zero.mpr hzero
      rw [decimal, if_neg hzero, List.head?_reverse, List.getLast?_map,
        List.getLast?_eq_some_getLast hne, Option.map_some, Option.some.injEq] at hhead
      have hlast : (Nat.digits 10 n).getLast hne ≠ 0 := Nat.getLast_digit_ne_zero 10 hzero
      have hlt : (Nat.digits 10 n).getLast hne < 10 :=
        Nat.digits_lt_base (by decide) (List.getLast_mem hne)
      have hchar : ∀ d < 10, digitChar d = 0x30 → d = 0 := by decide
      exact absurd (hchar _ hlt hhead) hlast

theorem text_eq {buf : Bytes} (h : 11 ≤ buf.length) (val : BitVec 32) :
    text buf val = some (decimal val.toNat) := by
  obtain ⟨buf', p, hrun, -, hdrop⟩ := fastItoa_eq h val
  have hdigit : ∀ c ∈ decimal val.toNat, (c != 0) = true := by
    intro c hc
    have hrange := mem_decimal hc
    refine bne_iff_ne.mpr fun hzero => ?_
    subst hzero
    exact absurd hrange.1 (by decide)
  rw [text, hrun, Option.map_some, hdrop, List.takeWhile_append_of_pos hdigit,
    List.takeWhile_cons_of_neg (by simp), List.append_nil]

theorem fastAtoi_text (val : BitVec 32) :
    fastAtoi (decimal val.toNat) = some (val.toNat : Int) :=
  fastAtoi_decimal (val.isLt.trans (by decide))

/-- **Every number of 32 bits comes back from its text.** -/
theorem fastItoa_law {buf : Bytes} (h : 11 ≤ buf.length) (val : BitVec 32) : Law buf val where
  inside := by
    obtain ⟨buf', p, hrun, hlength, hdrop⟩ := fastItoa_eq h val
    refine ⟨buf', p, hrun, hlength, ?_⟩
    have hsuffix : buf.drop 11 <:+ buf'.drop p := by
      rw [hdrop, List.append_cons]
      exact List.suffix_append _ _
    have hall := hsuffix.trans (List.drop_suffix p buf')
    rw [List.suffix_iff_eq_drop.mp hall, List.length_drop, hlength]
    congr 1
    omega
  trip := ⟨decimal val.toNat, text_eq h val, isDecimal_decimal _, fastAtoi_text val⟩
  distinct {buf' val'} h' heq := by
    rw [text_eq h, text_eq h', Option.some.injEq] at heq
    have hread := fastAtoi_text val
    rw [heq, fastAtoi_text val', Option.some.injEq] at hread
    exact BitVec.eq_of_toNat_eq (Int.ofNat.inj hread).symm

theorem fastItoa_law_buffer : Law (List.replicate 11 0) 1234567890 :=
  fastItoa_law (by decide) 1234567890

end Itoa

end PikaScript
