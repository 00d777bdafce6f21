import NyanSD.Foundation.Base128

/-!
# Packed integers

`readPackedInt` and `writePackedInt` move single bits between an integer and a word
whose bytes carry seven of them each. The running indices stay below 32, so no shift
leaves its type.
-/

namespace NyanSD.ByteBauble

/-- The output integer, and the bit indices into the source and the output. -/
structure BitCopy where
  output : UInt32 := 0
  src : Nat := 0
  idx : Nat := 0

/-- A bit of an integer is set. -/
def testBit (integer : UInt32) (index : Nat) : Bool :=
  (integer >>> UInt32.ofNat index) &&& 1 != 0

/-- `output |= (1UL << idx++)`. -/
def BitCopy.setBit (s : BitCopy) : BitCopy :=
  { s with output := s.output ||| (1 <<< UInt32.ofNat s.idx), idx := s.idx + 1 }

/-- One turn of the loop that copies the data bits of a byte. -/
def copyBit (source : UInt32) (s : BitCopy) : BitCopy :=
  let next := if testBit source s.src then s.setBit else { s with idx := s.idx + 1 }
  { next with src := s.src + 1 }

def copyBits (source : UInt32) : Nat → BitCopy → BitCopy
  | 0, s => s
  | count + 1, s => copyBits source count (copyBit source s)

/-! ## The two loops -/

/-- `remaining` turns of the reading loop from `i` on: how many bytes are reported, and
the output. A clear flag ends the loop, and so does the fourth turn. -/
def readBytes (packed : UInt32) : Nat → Nat → BitCopy → Nat × UInt32
  | 0, i, s => (i + 1, s.output)
  | remaining + 1, i, s =>
      let s := copyBits packed 7 s
      if testBit packed s.src then readBytes packed remaining (i + 1) { s with src := s.src + 1 }
      else (i + 1, s.output)

/-- The return value and the output. -/
def readPackedInt (packed : UInt32) : Nat × UInt32 :=
  readBytes packed 4 0 {}

/-- `remaining` turns of the writing loop from `i` on. -/
def writeBytes (integer : UInt32) (totalBytes : Nat) : Nat → Nat → BitCopy → BitCopy
  | 0, _, s => s
  | remaining + 1, i, s =>
      let s := copyBits integer 7 s
      writeBytes integer totalBytes remaining (i + 1) (if i + 1 < totalBytes then s.setBit else s)

/-- How many bytes the writer takes; none is the error. -/
def totalBytes (integer : UInt32) : Nat :=
  if integer ≤ 0x80 then 1
  else if integer ≤ 0x4000 then 2
  else if integer ≤ 0x200000 then 3
  else if integer ≤ 0x10000000 then 4
  else 0

/-- The return value and the output, which is left alone in case of an error. -/
def writePackedInt (integer output : UInt32) : Nat × UInt32 :=
  if totalBytes integer = 0 then (0, output)
  else (totalBytes integer,
    (writeBytes integer (totalBytes integer) (totalBytes integer) 0 {}).output)

/-! ## Copying bits is moving digits -/

theorem toNat_ofNat_index {index : Nat} (hindex : index < 32) :
    (UInt32.ofNat index).toNat % 32 = index := by
  rw [UInt32.toNat_ofNat_of_lt' (Nat.lt_trans hindex (by decide)), Nat.mod_eq_of_lt hindex]

theorem testBit_eq (integer : UInt32) {index : Nat} (hindex : index < 32) :
    testBit integer index = decide (integer.toNat / 2 ^ index % 2 = 1) := by
  have hone : (1 : UInt32).toNat = 2 ^ 1 - 1 := rfl
  have hbit : ((integer >>> UInt32.ofNat index) &&& 1).toNat = integer.toNat / 2 ^ index % 2 := by
    rw [UInt32.toNat_and, UInt32.toNat_shiftRight, toNat_ofNat_index hindex, hone,
      Nat.and_two_pow_sub_one_eq_mod, Nat.shiftRight_eq_div_pow, Nat.pow_one]
  rw [testBit, ← hbit, bne, beq_eq_decide, ← decide_not, decide_eq_decide, ← UInt32.toNat_inj,
    hbit, UInt32.toNat_zero]
  omega

theorem toNat_setBit {s : BitCopy} (hidx : s.idx < 32) (hlow : s.output.toNat < 2 ^ s.idx) :
    s.setBit.output.toNat = s.output.toNat + 2 ^ s.idx := by
  have hpow : 2 ^ s.idx < 2 ^ 32 := Nat.pow_lt_pow_right (by decide) hidx
  have hbit : (1 <<< UInt32.ofNat s.idx : UInt32).toNat = 2 ^ s.idx := by
    rw [UInt32.toNat_shiftLeft, toNat_ofNat_index hidx, UInt32.toNat_one, Nat.one_shiftLeft,
      Nat.mod_eq_of_lt hpow]
  have hor := Nat.two_pow_add_eq_or_of_lt hlow 1
  rw [Nat.mul_one] at hor
  rw [BitCopy.setBit, UInt32.toNat_or, hbit, Nat.or_comm, ← hor, Nat.add_comm]

/-- Copying bits appends the low bits of what is left of the source to the output. -/
structure Copied (source : UInt32) (count : Nat) (s s' : BitCopy) : Prop where
  src : s'.src = s.src + count
  idx : s'.idx = s.idx + count
  output : s'.output.toNat = s.output.toNat +
    2 ^ s.idx * (source.toNat / 2 ^ s.src % 2 ^ count)

theorem copied_copyBit {source : UInt32} {s : BitCopy} (hsrc : s.src < 32) (hidx : s.idx < 32)
    (hlow : s.output.toNat < 2 ^ s.idx) : Copied source 1 s (copyBit source s) := by
  rw [copyBit]
  by_cases hdigit : source.toNat / 2 ^ s.src % 2 = 1
  · have hset : testBit source s.src = true := by
      rw [testBit_eq source hsrc, decide_eq_true hdigit]
    refine ⟨rfl, by rw [hset]; rfl, ?_⟩
    rw [hset, if_pos rfl, Nat.pow_one, hdigit, Nat.mul_one]
    exact toNat_setBit hidx hlow
  · have hclear : testBit source s.src = false := by
      rw [testBit_eq source hsrc, decide_eq_false hdigit]
    refine ⟨rfl, by rw [hclear]; rfl, ?_⟩
    rw [hclear, if_neg Bool.false_ne_true, Nat.pow_one, Nat.mod_two_ne_one.mp hdigit, Nat.mul_zero]
    rfl

/-- Copying goes on where it ended. -/
theorem Copied.trans {source : UInt32} {first second : Nat} {s s' s'' : BitCopy}
    (hfirst : Copied source first s s') (hsecond : Copied source second s' s'') :
    Copied source (first + second) s s'' where
  src := by rw [hsecond.src, hfirst.src, Nat.add_assoc]
  idx := by rw [hsecond.idx, hfirst.idx, Nat.add_assoc]
  output := by
    rw [hsecond.output, hfirst.output, hfirst.idx, hfirst.src, Nat.pow_add 2 first second,
      Nat.mod_mul, Nat.div_div_eq_div_mul, ← Nat.pow_add, Nat.mul_add, ← Nat.mul_assoc,
      ← Nat.pow_add, Nat.add_assoc]

/-- What was copied stays below the index of the output. -/
theorem Copied.output_lt {source : UInt32} {count : Nat} {s s' : BitCopy}
    (hcopied : Copied source count s s') (hlow : s.output.toNat < 2 ^ s.idx) :
    s'.output.toNat < 2 ^ s'.idx := by
  have hdigits : source.toNat / 2 ^ s.src % 2 ^ count < 2 ^ count :=
    Nat.mod_lt _ (Nat.two_pow_pos _)
  have hle := Nat.mul_le_mul_left (2 ^ s.idx) (Nat.succ_le_of_lt hdigits)
  rw [Nat.mul_succ, ← Nat.pow_add] at hle
  rw [hcopied.output, hcopied.idx]
  omega

theorem copied_copyBits {source : UInt32} {count : Nat} {s : BitCopy}
    (hsrc : s.src + count ≤ 32) (hidx : s.idx + count ≤ 32)
    (hlow : s.output.toNat < 2 ^ s.idx) : Copied source count s (copyBits source count s) := by
  induction count generalizing s with
  | zero =>
      refine ⟨rfl, rfl, ?_⟩
      rw [copyBits, Nat.pow_zero, Nat.mod_one, Nat.mul_zero, Nat.add_zero]
  | succ count ih =>
      have hbit : Copied source 1 s (copyBit source s) :=
        copied_copyBit (by omega) (by omega) hlow
      have hsrc' := hbit.src
      have hidx' := hbit.idx
      rw [copyBits, Nat.add_comm count 1]
      exact hbit.trans (ih (by omega) (by omega) (hbit.output_lt hlow))

/-! ## Reading -/

/-- The reading loop reads the groups of the bytes that are left. -/
theorem readBytes_eq (packed : UInt32) {remaining i : Nat} {s : BitCopy}
    (hturns : remaining + i ≤ 4) (hsrc : s.src = 8 * i) (hidx : s.idx = 7 * i)
    (hlow : s.output.toNat < 2 ^ s.idx) :
    (readBytes packed remaining i s).1 =
        i + (Base128.readGroups (lowBytes remaining (packed.toNat / 2 ^ (8 * i)))).1 ∧
      (readBytes packed remaining i s).2.toNat = s.output.toNat +
        2 ^ (7 * i) * (Base128.readGroups (lowBytes remaining (packed.toNat / 2 ^ (8 * i)))).2 := by
  induction remaining generalizing i s with
  | zero => exact ⟨rfl, (Nat.add_zero _).symm⟩
  | succ remaining ih =>
      have hcopied : Copied packed 7 s (copyBits packed 7 s) :=
        copied_copyBits (by omega) (by omega) hlow
      have hlow' := hcopied.output_lt hlow
      obtain ⟨hsrc', hidx', houtput⟩ := hcopied
      have hflag := testBit_eq packed (show 8 * i + 7 < 32 by omega)
      have hnext : packed.toNat / 2 ^ (8 * (i + 1)) = packed.toNat / 2 ^ (8 * i) / 256 := by
        rw [Nat.div_div_eq_div_mul, Nat.mul_succ, Nat.pow_add]
      have hbyte : (UInt8.ofNat (packed.toNat / 2 ^ (8 * i))).toNat =
          packed.toNat / 2 ^ (8 * i) % 256 := UInt8.toNat_ofNat'
      rw [Nat.pow_add, ← Nat.div_div_eq_div_mul] at hflag
      rw [hsrc, hidx] at houtput
      rw [readBytes, hsrc', hsrc, hflag, lowBytes, ← hnext]
      by_cases hmore : packed.toNat / 2 ^ (8 * i) / 2 ^ 7 % 2 = 1
      · have hmoved : (copyBits packed 7 s).idx = 7 * (i + 1) := by omega
        obtain ⟨hcount, hvalue⟩ := ih (s := { copyBits packed 7 s with src := 8 * i + 7 + 1 })
          (show remaining + (i + 1) ≤ 4 by omega) (Nat.mul_succ 8 i).symm hmoved hlow'
        have hgroup : packed.toNat / 2 ^ (8 * i) % 256 % 128 =
            packed.toNat / 2 ^ (8 * i) % 2 ^ 7 := by omega
        rw [decide_eq_true hmore, if_pos rfl, Base128.readGroups_more _ (by omega), hcount]
        refine ⟨by omega, ?_⟩
        rw [hvalue, houtput, hbyte, hgroup]
        dsimp only
        rw [Nat.mul_succ 7 i, Nat.pow_add, Nat.mul_add (2 ^ (7 * i)), Nat.mul_assoc, Nat.add_assoc]
      · have hgroup : packed.toNat / 2 ^ (8 * i) % 256 =
            packed.toNat / 2 ^ (8 * i) % 2 ^ 7 := by omega
        rw [decide_eq_false hmore, if_neg Bool.false_ne_true,
          Base128.readGroups_last _ (by omega), houtput, hbyte, hgroup]
        exact ⟨rfl, rfl⟩

/-- The reader reads the groups of the bytes of the word, lowest byte first. -/
theorem readPackedInt_eq (packed : UInt32) :
    (readPackedInt packed).1 = (Base128.readGroups (MachineInt.bytes packed)).1 ∧
      (readPackedInt packed).2.toNat = (Base128.readGroups (MachineInt.bytes packed)).2 := by
  have hread := readBytes_eq packed (s := {}) (i := 0) (show 4 + 0 ≤ 4 by decide) rfl rfl
    (by decide)
  rw [Nat.mul_zero, Nat.pow_zero, Nat.div_one, Nat.zero_add, Nat.one_mul] at hread
  obtain ⟨hcount, hvalue⟩ := hread
  exact ⟨hcount, hvalue.trans (Nat.zero_add _)⟩

/-! ## Writing -/

/-- The writing loop appends the groups that are left, lowest first. -/
theorem writeBytes_eq (integer : UInt32) {remaining i : Nat} {s : BitCopy}
    (hturns : i + remaining ≤ 4) (hsrc : s.src = 7 * i) (hidx : s.idx = 8 * i)
    (hlow : s.output.toNat < 2 ^ s.idx) :
    (writeBytes integer (i + remaining) remaining i s).output.toNat = s.output.toNat +
      2 ^ (8 * i) * fromBytes (Base128.groups remaining (integer.toNat / 2 ^ (7 * i))) := by
  induction remaining generalizing i s with
  | zero => rfl
  | succ remaining ih =>
      have hcopied : Copied integer 7 s (copyBits integer 7 s) :=
        copied_copyBits (by omega) (by omega) hlow
      have hlow' := hcopied.output_lt hlow
      obtain ⟨hsrc', hidx', houtput⟩ := hcopied
      rw [hsrc, hidx] at houtput
      rw [writeBytes]
      rcases Nat.eq_zero_or_pos remaining with rfl | hmore
      · rw [if_neg (by omega), writeBytes, Base128.groups, fromBytes, fromBytes,
          Base128.toNat_ofNat_mod, houtput]
        rfl
      · obtain ⟨remaining, rfl⟩ := Nat.exists_eq_add_of_le' hmore
        have hset := toNat_setBit (s := copyBits integer 7 s) (by omega) hlow'
        have htotal : i + (remaining + 1 + 1) = i + 1 + (remaining + 1) := by omega
        have hnext : integer.toNat / 2 ^ (7 * (i + 1)) = integer.toNat / 2 ^ (7 * i) / 128 := by
          rw [Nat.div_div_eq_div_mul, Nat.mul_succ, Nat.pow_add]
        have hmoved : (copyBits integer 7 s).setBit.src = 7 * (i + 1) := by
          change (copyBits integer 7 s).src = _
          omega
        have hplace : (copyBits integer 7 s).setBit.idx = 8 * (i + 1) := by
          change (copyBits integer 7 s).idx + 1 = _
          omega
        have hlow'' : (copyBits integer 7 s).setBit.output.toNat <
            2 ^ (copyBits integer 7 s).setBit.idx := by
          change _ < 2 ^ ((copyBits integer 7 s).idx + 1)
          rw [hset, Nat.pow_succ]
          omega
        rw [if_pos (by omega), htotal, ih (by omega) hmoved hplace hlow'', hset, houtput, hidx',
          hidx, hnext, Base128.groups, fromBytes, Base128.toNat_ofNat_mod_add, Nat.mul_succ 8 i,
          Nat.pow_add 2 (8 * i) 7, Nat.pow_add 2 (8 * i) 8]
        generalize 2 ^ (8 * i) = place
        rw [Nat.mul_add, Nat.mul_add, Nat.mul_assoc, Nat.add_assoc, Nat.add_assoc, Nat.add_assoc]
        rfl

/-! ## Round trips -/

theorem totalBytes_le (integer : UInt32) : totalBytes integer ≤ 4 := by
  unfold totalBytes
  split
  · decide
  split
  · decide
  split
  · decide
  split
  · decide
  · decide

/-- The lowest bytes of the written word are the groups of the integer. -/
theorem take_bytes_writePackedInt {integer : UInt32} (output : UInt32)
    (hfits : totalBytes integer ≠ 0) :
    (MachineInt.bytes (writePackedInt integer output).2).take (totalBytes integer) =
      Base128.groups (totalBytes integer) integer.toNat := by
  have hword := writeBytes_eq integer (s := {}) (i := 0)
    (show 0 + totalBytes integer ≤ 4 by rw [Nat.zero_add]; exact totalBytes_le integer) rfl rfl
    (by decide)
  rw [Nat.mul_zero, Nat.pow_zero, Nat.div_one, Nat.zero_add, Nat.one_mul] at hword
  have hgroups := hword.trans (Nat.zero_add _)
  have hlength := Base128.length_groups (totalBytes integer) integer.toNat
  have hdigits := lowBytes_fromBytes (Base128.groups (totalBytes integer) integer.toNat)
  rw [hlength, ← hgroups] at hdigits
  rw [writePackedInt, if_neg hfits, MachineInt.bytes]
  exact (take_lowBytes _ (totalBytes_le integer)).trans hdigits

/-- What is read from a word that agrees with the written one on the bytes taken. -/
theorem readPackedInt_of_take {integer word : UInt32} (output : UInt32)
    (hfits : totalBytes integer ≠ 0)
    (hagree : (MachineInt.bytes word).take (totalBytes integer) =
      (MachineInt.bytes (writePackedInt integer output).2).take (totalBytes integer)) :
    (readPackedInt word).1 = totalBytes integer ∧
      (readPackedInt word).2.toNat = integer.toNat % 128 ^ totalBytes integer := by
  rw [take_bytes_writePackedInt output hfits] at hagree
  have hbytes := List.take_append_drop (totalBytes integer) (MachineInt.bytes word)
  have hread := readPackedInt_eq word
  rw [← hbytes, hagree, Base128.readGroups_groups _ _ (Nat.pos_of_ne_zero hfits)] at hread
  exact hread

/-- An integer that is packed is read back, whatever the bytes above say, and the integers
that do not fit in 28 bits are those that are refused. -/
def RoundTrips (integer : UInt32) : Prop :=
  ∀ output : UInt32,
    let packed := writePackedInt integer output
    (packed.1 ≠ 0 → ∀ word : UInt32,
      (MachineInt.bytes word).take packed.1 = (MachineInt.bytes packed.2).take packed.1 →
        readPackedInt word = (packed.1, integer)) ∧
    (packed.1 = 0 ↔ 2 ^ 28 ≤ integer.toNat)

theorem writePackedInt_fst (integer output : UInt32) :
    (writePackedInt integer output).1 = totalBytes integer := by
  rw [writePackedInt]
  split
  next hzero => exact hzero.symm
  next => rfl

/-- An integer is read back when it has no more bits than its bytes have room for. -/
theorem roundTrips_iff (integer : UInt32) :
    RoundTrips integer ↔
      (totalBytes integer ≠ 0 → integer.toNat < 128 ^ totalBytes integer) ∧
        (totalBytes integer = 0 ↔ 2 ^ 28 ≤ integer.toNat) := by
  unfold RoundTrips
  simp only [writePackedInt_fst]
  constructor
  · intro hround
    obtain ⟨hread, hrange⟩ := hround 0
    refine ⟨?_, hrange⟩
    intro hfits
    obtain ⟨-, hvalue⟩ := readPackedInt_of_take 0 hfits rfl
    rw [hread hfits _ rfl] at hvalue
    rw [hvalue]
    exact Nat.mod_lt _ (Nat.pow_pos (by decide))
  · rintro ⟨hroom, hrange⟩ output
    refine ⟨?_, hrange⟩
    intro hfits word hagree
    obtain ⟨hcount, hvalue⟩ := readPackedInt_of_take output hfits hagree
    rw [Nat.mod_eq_of_lt (hroom hfits)] at hvalue
    exact Prod.ext hcount (UInt32.toNat_inj.mp hvalue)

/-- The thresholds of the writer let one more integer than fits into each number of bytes,
and exactly these four are lost. -/
theorem packedInt_round_trip (integer : UInt32) :
    RoundTrips integer ↔ integer ≠ 0x80 ∧ integer ≠ 0x4000 ∧ integer ≠ 0x200000 ∧
      integer ≠ 0x10000000 := by
  have hlimits : (0x80 : UInt32).toNat = 128 ∧ (0x4000 : UInt32).toNat = 128 ^ 2 ∧
      (0x200000 : UInt32).toNat = 128 ^ 3 ∧ (0x10000000 : UInt32).toNat = 128 ^ 4 :=
    ⟨rfl, rfl, rfl, rfl⟩
  obtain ⟨hone, htwo, hthree, hfour⟩ := hlimits
  rw [roundTrips_iff]
  simp only [totalBytes, UInt32.le_iff_toNat_le, ne_eq, ← UInt32.toNat_inj, hone, htwo, hthree,
    hfour]
  split
  · omega
  split
  · omega
  split
  · omega
  split
  · omega
  · omega

/-- 128 is packed into one byte, which has no room for its only bit; and the smallest integer
that does not fit in 28 bits is packed into four. -/
theorem packedInt_lost :
    writePackedInt 0x80 0 = (1, 0) ∧ readPackedInt 0 = (1, 0) ∧
    writePackedInt 0x10000000 0 = (4, 0x00808080) ∧ readPackedInt 0x00808080 = (4, 0) ∧
    ¬ RoundTrips 0x80 ∧ ¬ RoundTrips 0x10000000 := by
  have hone : writePackedInt 0x80 0 = (1, 0) := by decide
  have hfour : writePackedInt 0x10000000 0 = (4, 0x00808080) := by decide
  refine ⟨hone, by decide, hfour, by decide, ?_, ?_⟩
  · intro hround
    have hread := (hround 0).1 (by rw [hone]; decide) 0 (by rw [hone])
    exact absurd hread (by decide)
  · intro hround
    have hrefused := (hround 0).2.mpr (by decide)
    rw [hfour] at hrefused
    cases hrefused

/-! ## Arbitrary words -/

/-- What is read from a word is one number: as many of the lowest bytes as are counted, all but
the last with the flag, and the bytes above them have no part in it. -/
structure ReadsOne (packed : UInt32) : Prop where
  one_le : 1 ≤ (readPackedInt packed).1
  le_four : (readPackedInt packed).1 ≤ 4
  output_lt : (readPackedInt packed).2.toNat < 2 ^ (7 * (readPackedInt packed).1)
  output : (readPackedInt packed).2.toNat =
    Base128.joinGroups ((MachineInt.bytes packed).take (readPackedInt packed).1)
  flags : Base128.Packed ((MachineInt.bytes packed).take (readPackedInt packed).1)
  above : ∀ word : UInt32, (MachineInt.bytes word).take (readPackedInt packed).1 =
    (MachineInt.bytes packed).take (readPackedInt packed).1 →
      readPackedInt word = readPackedInt packed

/-- A word that begins with the bytes of one number. -/
theorem readPackedInt_append {word : UInt32} {front rest : List UInt8}
    (hbytes : MachineInt.bytes word = front ++ rest) (hfront : Base128.Packed front) :
    (readPackedInt word).1 = front.length ∧
      (readPackedInt word).2.toNat = Base128.joinGroups front := by
  have hread := readPackedInt_eq word
  rw [hbytes, Base128.readGroups_append rest hfront] at hread
  exact hread

theorem readsOne_of_append {packed : UInt32} {front rest : List UInt8}
    (hbytes : MachineInt.bytes packed = front ++ rest) (hfront : Base128.Packed front) :
    ReadsOne packed := by
  obtain ⟨hcount, hvalue⟩ := readPackedInt_append hbytes hfront
  have htake : (MachineInt.bytes packed).take (readPackedInt packed).1 = front := by
    rw [hcount, hbytes, List.take_left]
  have hlength : front.length + rest.length = 4 := by
    rw [← List.length_append, ← hbytes]
    exact MachineInt.length_bytes packed
  obtain ⟨lead, last, hlead, -, -⟩ := id hfront
  refine ⟨?_, ?_, ?_, by rw [htake, hvalue], by rw [htake]; exact hfront, ?_⟩
  · rw [hcount, hlead, List.length_append]
    exact Nat.le_add_left _ _
  · rw [hcount, ← hlength]
    exact Nat.le_add_right _ _
  · rw [hcount, hvalue]
    exact Base128.joinGroups_lt front
  · intro word hagree
    rw [htake] at hagree
    have hword := List.take_append_drop (readPackedInt packed).1 (MachineInt.bytes word)
    rw [hagree] at hword
    obtain ⟨hcount', hvalue'⟩ := readPackedInt_append hword.symm hfront
    apply Prod.ext
    · rw [hcount', hcount]
    · apply UInt32.toNat_inj.mp
      rw [hvalue', hvalue]

/-- A fifth byte is reported for a word of which every byte has the flag, and only for such
a word. -/
theorem readPackedInt_arbitrary (packed : UInt32) :
    ReadsOne packed ↔ ∃ byte ∈ MachineInt.bytes packed, byte.toNat < 128 := by
  constructor
  · intro hreads
    by_contra hnone
    have hflags : ∀ byte ∈ MachineInt.bytes packed, 128 ≤ byte.toNat := by
      intro byte hmem
      exact Nat.not_lt.mp fun hclear => hnone ⟨byte, hmem, hclear⟩
    have hcount := (readPackedInt_eq packed).1
    rw [Base128.readGroups_fst_of_flags hflags, MachineInt.length_bytes] at hcount
    have hle := hreads.le_four
    rw [hcount] at hle
    exact absurd hle (by decide)
  · intro hclear
    obtain ⟨front, rest, hbytes, hfront⟩ := Base128.exists_packed_append hclear
    exact readsOne_of_append hbytes hfront

theorem readPackedInt_all_flags :
    readPackedInt 0x80808080 = (5, 0) ∧ ¬ ReadsOne 0x80808080 := by
  have hread : readPackedInt 0x80808080 = (5, 0) := by decide
  refine ⟨hread, ?_⟩
  intro hreads
  have hle := hreads.le_four
  rw [hread] at hle
  exact absurd hle (by decide)

end NyanSD.ByteBauble
