import Tir.Adt.WordOrder
import Tir.Basic.Bytes
import Tir.Basic.Passes

/-!
# Splitting into lanes and joining them

`split_bits`, `split_bits_lanes` and `concat_lanes` of the interpreter, byte by byte and bit by bit as they are. A lane of a
split is the digit of the bits in base `2 ^ width`, and a concatenation spells its lanes as digits, so each undoes the other.
An integer lane is joined from its low word: lanes of more than 64 bits split but do not join (`lanes_invert_iff`).
-/

open List Option BitVec Nat

namespace Tir.Lang.Lanes

open Tir.Adt.Limbs Tir.Adt.Limbs.APInt Words

abbrev Byte := BitVec 8

/-- A value that is no iterator; a float is its width and its bits. -/
inductive Scalar where
 | int (x : APInt)
 | float (bitWidth bits : Nat)
 | rawBits (storage : List Byte)

/-! ## Raw bits -/

def leBytes (word : Adt.Limbs.Word) : List Byte :=
 (List.range 8).map fun i => word.extractLsb' (8 * i) 8

def fromAPInt (x : APInt) : List Byte :=
 (x.limbs.flatMap leBytes).take ((x.width + 7) / 8)

def fromAPFloat (bitWidth bits : Nat) : List Byte :=
 (List.range ((bitWidth + 7) / 8)).map fun i => BitVec.ofNat 8 (bits >>> (8 * i))

def chunks (size : Nat) (storage : List Byte) : List (List Byte) :=
 (List.range ((storage.length + size - 1) / size)).map fun i => (storage.drop (size * i)).take size

/-- Bytes as an unsigned integer; no bytes make no integer. -/
def toAPInt (storage : List Byte) : Option APInt :=
 if storage.length = 0 then none
 else some (fromWords (8 * storage.length) false ((chunks 8 storage).map fun chunk => BitVec.ofNat 64 (Words.value chunk)))

def split (storage : List Byte) (lanes : Nat) : Option (List (List Byte)) :=
 if 0 < lanes ∧ storage.length % lanes = 0 ∧ 0 < storage.length / lanes then some (chunks (storage.length / lanes) storage)
 else none

def resizeBytes (storage : List Byte) (length : Nat) : List Byte :=
 storage.take length ++ List.replicate (length - storage.length) 0#8

def splitLanes (storage : List Byte) (lanes laneBits : Nat) : Option (List (List Byte)) :=
 if 0 < lanes ∧ 0 < laneBits ∧ laneBits % 8 = 0 then
  some ((chunks (laneBits / 8) (resizeBytes storage (lanes * (laneBits / 8)))).take lanes)
 else none

/-! ## Split -/

def asRawBits : Scalar → List Byte
 | .int x => fromAPInt x
 | .float bitWidth bits => fromAPFloat bitWidth bits
 | .rawBits storage => storage

def splitBits (value : Scalar) (n : Nat) : Option (List APInt) := do
 (← split (asRawBits value) n).mapM toAPInt

/-- A lane that is no whole number of bytes, bit by bit. -/
def laneValue (storage : List Byte) (lane width : Nat) : Adt.Limbs.Word :=
 (List.range width).foldl (fun laneValue bit =>
  let position := lane * width + bit
  laneValue ||| ((storage.getD (position / 8) 0#8 >>> (position % 8)).setWidth 64 &&& 1#64) <<< bit) 0#64

def splitBitsLanes (value : Scalar) (n width : Nat) : Option (List APInt) :=
 if width % 8 ≠ 0 then
  if width ≤ 64 then (List.range n).mapM fun lane => APInt.new width (laneValue (asRawBits value) lane width) else none
 else do (← splitLanes (asRawBits value) n width).mapM toAPInt

/-! ## Concatenation -/

/-- A lane as its width in bits and bytes that hold them; an integer gives its low word. -/
def part : Scalar → Nat × List Byte
 | .int x => (x.width, leBytes x.value)
 | .float bitWidth bits => (bitWidth, fromAPFloat bitWidth bits)
 | .rawBits storage => (8 * storage.length, storage)

/-- One bit of a lane, at the next position of the storage. -/
def packBit (bytes : List Byte) (state : List Byte × Nat) (bit : Nat) : Option (List Byte × Nat) := do
 let byte ← bytes[bit / 8]?
 let set := fun lower : Byte => lower ||| 1#8 <<< (state.2 % 8)
 some (if (byte >>> (bit % 8)) &&& 1#8 = 1#8 then state.1.modify (state.2 / 8) set else state.1, state.2 + 1)

def packLane (state : List Byte × Nat) (lane : Nat × List Byte) : Option (List Byte × Nat) :=
 (List.range lane.1).foldlM (packBit lane.2) state

def concatLanes (lanes : List Scalar) : Option (List Byte) :=
 let parts := lanes.map part
 if parts.all (·.1 % 8 = 0) then
  (parts.mapM fun lane => if lane.1 / 8 ≤ lane.2.length then some (lane.2.take (lane.1 / 8)) else none).map List.flatten
 else
  (parts.foldlM packLane (List.replicate (((parts.map (·.1)).sum + 7) / 8) 0#8, 0)).map Prod.fst

/-! ## Digits -/

/-- Digit `k` in base `2 ^ w`. -/
def digit (value w k : Nat) : Nat :=
 value / 2 ^ (w * k) % 2 ^ w

/-- The number with given digits. -/
def joined (w : Nat) : List Nat → Nat
 | [] => 0
 | a :: rest => a % 2 ^ w + 2 ^ w * joined w rest

theorem joined_digits (value w n : Nat) : joined w ((List.range n).map (digit value w)) = value % 2 ^ (w * n) := by
 induction n generalizing value with
 | zero => simp [joined, mod_one]
 | succ n ih =>
  have hshift : digit value w ∘ Nat.succ = digit (value / 2 ^ w) w := by
   funext k
   rw [Function.comp, digit, digit, Nat.div_div_eq_div_mul, ← Nat.pow_add, succ_eq_add_one, Nat.mul_add, Nat.mul_one, Nat.add_comm w]
  rw [range_succ_eq_map, map_cons, List.map_map, hshift, joined, ih, digit, Nat.mul_zero, Nat.pow_zero, Nat.div_one,
   mod_mod, Nat.mul_succ, Nat.add_comm (w * n), Nat.pow_add, mod_mul]

theorem digit_joined (w : Nat) {as : List Nat} {k a : Nat} (h : as[k]? = some a) : digit (joined w as) w k = a % 2 ^ w := by
 induction as generalizing k with
 | nil => cases h
 | cons b as ih =>
  have hlt := mod_lt b (Nat.two_pow_pos w)
  cases k with
  | zero =>
   cases h
   rw [digit, joined, Nat.mul_zero, Nat.pow_zero, Nat.div_one, add_mul_mod_self_left, mod_mod]
  | succ k =>
   have hdiv : (b % 2 ^ w + 2 ^ w * joined w as) / 2 ^ w = joined w as := by
    rw [add_mul_div_left _ _ (Nat.two_pow_pos w), div_eq_of_lt hlt, zero_add]
   rw [digit, joined, Nat.mul_succ, add_comm (w * k), pow_add, ← Nat.div_div_eq_div_mul, hdiv]
   exact ih h

/-! ## Bytes and words -/

theorem value_leBytes (word : Adt.Limbs.Word) : Words.value (leBytes word) = word.toNat := by
 apply eq_of_testBit_eq
 intro i
 rw [leBytes, testBit_range_map (by decide), getLsbD_extractLsb', div_add_mod, testBit_toNat]
 by_cases hi : i < 8 * 8
 · simp [hi, mod_lt]
 · simp [hi, getLsbD_of_ge word i (by omega)]

theorem value_flatMap_leBytes (words : List Adt.Limbs.Word) : Words.value (words.flatMap leBytes) = Words.value words := by
 induction words with
 | nil => rfl
 | cons word words ih =>
  rw [flatMap_cons, value_append, value_leBytes, ih]
  rfl

theorem length_flatMap_leBytes (words : List Adt.Limbs.Word) : (words.flatMap leBytes).length = 8 * words.length := by
 simp [length_flatMap, leBytes, mul_comm]

/-- The bytes of an integer spell it. -/
theorem fromAPInt_spec {x : APInt} (hx : Valid x) :
  (fromAPInt x).length = (x.width + 7) / 8 ∧ Words.value (fromAPInt x) = x.u := by
 have hle := hx.le_words
 rw [fromAPInt, length_take, length_flatMap_leBytes, value_take, value_flatMap_leBytes]
 refine ⟨by omega, mod_eq_of_lt (hx.clear.trans_le (Nat.pow_le_pow_right (by decide) (by omega)))⟩

theorem value_chunks (storage : List Byte) :
  Words.value ((chunks 8 storage).map fun chunk => BitVec.ofNat 64 (Words.value chunk)) = Words.value storage := by
 apply eq_of_testBit_eq
 intro i
 rw [chunks, List.map_map, testBit_range_map (by decide), Function.comp, value_take, value_drop,
  getLsbD_ofNat, testBit_mod_two_pow, testBit_div_two_pow]
 have hmod := mod_lt i (show 0 < 64 by decide)
 have hposn : i % 64 + 8 * (8 * (i / 64)) = i := by omega
 rw [hposn]
 by_cases hi : i < 64 * ((storage.length + 8 - 1) / 8)
 · rw [decide_eq_true hi]
   simp [hmod]
 · have hlt := (value_lt storage).trans_le (Nat.pow_le_pow_right (show 0 < 2 by decide) (show 8 * storage.length ≤ i by omega))
   rw [decide_eq_false hi, Bool.false_and, testBit_lt_two_pow hlt]

/-- An unsigned lane of `w` bits. -/
structure IsLane (x : APInt) (w a : Nat) : Prop where
 valid : Valid x
 width : x.width = w
 unsigned : x.signed = false
 value : x.u = a

theorem toAPInt_spec {storage : List Byte} (h : 0 < storage.length) :
  ∃ x, toAPInt storage = some x ∧ IsLane x (8 * storage.length) (Words.value storage) := by
 obtain ⟨hvalid, hu⟩ := fromWords_spec (show 0 < 8 * storage.length by omega) false
  ((chunks 8 storage).map fun chunk => BitVec.ofNat 64 (value chunk))
 rw [value_chunks, mod_eq_of_lt (value_lt storage)] at hu
 exact ⟨_, if_neg (ne_of_gt h), hvalid, rfl, rfl, hu⟩

theorem resizeBytes_spec (storage : List Byte) (n : Nat) : (resizeBytes storage n).length = n ∧
  Words.value (resizeBytes storage n) = Words.value storage % 2 ^ (8 * n) := by
 have hzero : value (List.replicate (n - storage.length) 0#8) = 0 :=
  (value_eq_zero _).2 fun w hw => eq_of_mem_replicate hw
 rw [resizeBytes, length_append, length_take, length_replicate, value_append, value_take, hzero]
 exact ⟨by omega, rfl⟩

/-- The chunks of whole lanes are the digits. -/
theorem chunk_spec {storage : List Byte} {n size k : Nat} (hlen : storage.length = n * size) (hk : k < n) :
  ((storage.drop (size * k)).take size).length = size ∧
    Words.value ((storage.drop (size * k)).take size) = digit (Words.value storage) (8 * size) k := by
 rw [length_take, length_drop, value_take, value_drop, digit, mul_assoc]
 have hle := Nat.mul_le_mul_right size (succ_le_of_lt hk)
 rw [Nat.succ_mul, mul_comm k] at hle
 exact ⟨by omega, rfl⟩

theorem chunks_eq {storage : List Byte} {n size : Nat} (hlen : storage.length = n * size) (hsize : 0 < size) :
  chunks size storage = (List.range n).map fun i => (storage.drop (size * i)).take size := by
 have hcnt : (n * size + size - 1) / size = n := by
  rw [Nat.add_sub_assoc hsize, add_comm, add_mul_div_right _ _ hsize, div_eq_of_lt (by omega), zero_add]
 rw [chunks, hlen, hcnt]

/-- Digits of the low lanes do not depend on what is above. -/
theorem digit_mod {value w n k : Nat} (hk : k < n) : digit (value % 2 ^ (w * n)) w k = digit value w k := by
 obtain ⟨m, rfl⟩ : ∃ m, n = k + (m + 1) := ⟨n - k - 1, by omega⟩
 rw [digit, digit, Nat.mul_add, Nat.pow_add, mod_mul_right_div_self, Nat.mul_succ, Nat.add_comm (w * m), Nat.pow_add,
  mod_mul_right_mod]

theorem mapM_range {α β : Type} {n : Nat} {c : Nat → α} {f : α → Option β} {P : Nat → β → Prop}
  (h : ∀ k < n, ∃ y, f (c k) = some y ∧ P k y) :
  ∃ ys, ((List.range n).map c).mapM f = some ys ∧ ys.length = n ∧ ∀ (k : Nat) (y : β), ys[k]? = some y → P k y := by
 induction n with
 | zero => exact ⟨[], rfl, rfl, nofun⟩
 | succ n ih =>
  obtain ⟨ys, hys, hlen, hP⟩ := ih fun k hk => h k (lt_succ_of_lt hk)
  obtain ⟨y, hy, hPy⟩ := h n (lt_succ_self n)
  refine ⟨ys ++ [y], ?_, by rw [length_append, hlen]; rfl, fun k z hz => ?_⟩
  · simp [range_succ, mapM_append, hys, hy]
  · rcases lt_or_ge k ys.length with hlt | hge
    · rw [getElem?_append_left hlt] at hz
      exact hP k z hz
    · rw [getElem?_append_right hge, getElem?_singleton] at hz
      split at hz
      · cases hz
        obtain rfl : k = n := by omega
        exact hPy
      · cases hz

/-! ## What a split gives -/

theorem toNat_laneValue (storage : List Byte) (lane : Nat) {width : Nat} (h : width ≤ 64) :
  (laneValue storage lane width).toNat = digit (Words.value storage) width lane := by
 have hbits : ∀ n ≤ 64, ∀ j, ((List.range n).foldl (fun laneValue bit =>
   let position := lane * width + bit
   laneValue ||| ((storage.getD (position / 8) 0#8 >>> (position % 8)).setWidth 64 &&& 1#64) <<< bit) 0#64).getLsbD j =
   (decide (j < n) && (value storage).testBit (lane * width + j)) := by
  intro n hn j
  induction n with
  | zero => simp
  | succ n ih =>
   rw [range_succ, foldl_append, foldl_cons, foldl_nil, getLsbD_or, ih (by omega)]
   rw [getLsbD_shiftLeft, getLsbD_and, getLsbD_setWidth, getLsbD_ushiftRight]
   rcases Nat.lt_trichotomy j n with hlt | rfl | hgt
   · simp [hlt, lt_succ_of_lt hlt]
   · simp [testBit_value (show 0 < 8 by decide), show j < 64 by omega]
   · have hone : (1#64).getLsbD (j - n) = false := by simp [getLsbD_one, sub_ne_zero_of_lt hgt]
     simp [hone, not_lt.2 (le_of_lt hgt), not_lt.2 (succ_le_of_lt hgt)]
 apply eq_of_testBit_eq
 intro j
 rw [testBit_toNat, laneValue, hbits width h, digit, testBit_mod_two_pow, testBit_div_two_pow, mul_comm, add_comm]

/-- Lane `k` is digit `k` of the bits. -/
theorem splitBitsLanes_spec (value : Scalar) {n width : Nat} (hn : 0 < n ∨ width % 8 ≠ 0) (hpos : 0 < width)
  (hwid : width ≤ 64 ∨ width % 8 = 0) : ∃ xs, splitBitsLanes value n width = some xs ∧ xs.length = n ∧
   ∀ (k : Nat) (x : APInt), xs[k]? = some x → IsLane x width (digit (Words.value (asRawBits value)) width k) := by
 rw [splitBitsLanes]
 split
 next hbits =>
  rw [if_pos (hwid.resolve_right hbits)]
  have hnarrow := hwid.resolve_right hbits
  have hlane : ∀ k < n, ∃ x, APInt.new width (laneValue (asRawBits value) (id k) width) = some x ∧
    IsLane x width (digit (Words.value (asRawBits value)) width k) := by
   intro k _
   have hval := toNat_and_mask (laneValue (asRawBits value) k width) hnarrow
   rw [toNat_laneValue _ _ hnarrow, digit, mod_mod, ← digit] at hval
   obtain ⟨hvalid, hu⟩ := valid_of_lt hpos hnarrow false (hval.trans_lt (mod_lt _ (Nat.two_pow_pos width)))
   refine ⟨_, ?_, hvalid, rfl, rfl, hu.trans hval⟩
   rw [APInt.new, if_neg (ne_of_gt hpos), if_neg (not_lt.2 hnarrow)]
   rfl
  have hlanes := mapM_range (c := id) (f := fun lane => APInt.new width (laneValue (asRawBits value) lane width)) hlane
  rwa [List.map_id] at hlanes
 next hbytes =>
  have hsize : 8 * (width / 8) = width := by omega
  obtain ⟨hlen, hval⟩ := resizeBytes_spec (asRawBits value) (n * (width / 8))
  rw [splitLanes, if_pos ⟨hn.resolve_right hbytes, hpos, not_not.1 hbytes⟩, chunks_eq hlen (by omega),
   take_of_length_le (by simp)]
  apply mapM_range
  intro k hk
  obtain ⟨hchunk, hdigit⟩ := chunk_spec hlen hk
  obtain ⟨x, hx, hlane⟩ := toAPInt_spec (show 0 < (((resizeBytes (asRawBits value) (n * (width / 8))).drop (width / 8 * k)).take
   (width / 8)).length by omega)
  rw [hchunk, hdigit, hval, hsize, mul_comm n, ← mul_assoc, hsize, digit_mod hk] at hlane
  exact ⟨x, hx, hlane⟩

/-- Whole-byte lanes split alike without a width. -/
theorem splitBits_eq {value : Scalar} {n width : Nat} (hlen : 8 * (asRawBits value).length = n * width) (hpos : 0 < width)
  (hbytes : width % 8 = 0) : splitBits value n = splitBitsLanes value n width := by
 have hsize : (asRawBits value).length = n * (width / 8) := by
  obtain ⟨m, rfl⟩ : ∃ m, width = 8 * m := ⟨width / 8, by omega⟩
  rw [Nat.mul_div_cancel_left _ (by decide)]
  linarith
 rw [splitBits, splitBitsLanes, if_neg (not_not.2 hbytes), split, splitLanes]
 by_cases hn : 0 < n
 · have hdiv : (asRawBits value).length / n = width / 8 := by rw [hsize, Nat.mul_div_cancel_left _ hn]
   have hresize : resizeBytes (asRawBits value) (n * (width / 8)) = asRawBits value := by
    rw [resizeBytes, ← hsize, take_length, Nat.sub_self, List.replicate_zero, append_nil]
   rw [hdiv, if_pos ⟨hn, by rw [hsize, mul_mod_right], by omega⟩, if_pos ⟨hn, hpos, hbytes⟩, hresize, chunks_eq hsize (by omega),
    take_of_length_le (by simp)]
 · rw [if_neg (fun h => hn h.1), if_neg (fun h => hn h.1)]

/-! ## What a concatenation gives -/

/-- What the bits of a value spell. -/
def Scalar.number : Scalar → Nat
 | .int x => x.u
 | .float _ bits => bits
 | .rawBits storage => Words.value storage

def Scalar.WellFormed : Scalar → Prop
 | .int x => Valid x
 | .float bitWidth bits => bits < 2 ^ bitWidth
 | .rawBits _ => True

/-- No integer of more than 64 bits. -/
def Scalar.Narrow : Scalar → Prop
 | .int x => x.width ≤ 64
 | _ => True

theorem value_fromAPFloat (bitWidth bits : Nat) : (fromAPFloat bitWidth bits).length = (bitWidth + 7) / 8 ∧
   Words.value (fromAPFloat bitWidth bits) = bits % 2 ^ (8 * ((bitWidth + 7) / 8)) := by
 refine ⟨by rw [fromAPFloat, length_map, length_range], ?_⟩
 apply eq_of_testBit_eq
 intro i
 rw [fromAPFloat, testBit_range_map (by decide), getLsbD_ofNat, testBit_shiftRight, testBit_mod_two_pow,
  div_add_mod, decide_eq_true (mod_lt i (show 0 < 8 by decide)), Bool.true_and]

/-- The bytes of a lane hold it, unless it is an integer wider than a word. -/
theorem part_spec {lane : Scalar} (h : lane.WellFormed) : ((part lane).1 ≤ 8 * (part lane).2.length ↔ lane.Narrow) ∧
  (lane.Narrow → Words.value (part lane).2 % 2 ^ (part lane).1 = lane.number) := by
 cases lane with
 | int x =>
  refine ⟨by simp [part, leBytes, Scalar.Narrow], fun hnarrow => ?_⟩
  rw [part, value_leBytes, Scalar.number, Valid.u_narrow h (not_lt.2 hnarrow)]
  exact mod_eq_of_lt (Valid.value_lt h (not_lt.2 hnarrow))
 | float bitWidth bits =>
  obtain ⟨hlen, hval⟩ := value_fromAPFloat bitWidth bits
  have hle : bitWidth ≤ 8 * ((bitWidth + 7) / 8) := by omega
  refine ⟨iff_of_true (by rwa [part, hlen]) trivial, fun _ => ?_⟩
  rw [part, hval, mod_mod_pow hle]
  exact mod_eq_of_lt h
 | rawBits storage => exact ⟨iff_of_true le_rfl trivial, fun _ => mod_eq_of_lt (value_lt storage)⟩

/-- Whole-byte lanes are put one after the other. -/
theorem concatBytes_spec {parts : List (Nat × List Byte)} {width : Nat} (hbytes : width % 8 = 0)
  (hall : ∀ lane ∈ parts, lane.1 = width ∧ width ≤ 8 * lane.2.length) : ∃ pieces,
   parts.mapM (fun lane => if lane.1 / 8 ≤ lane.2.length then some (lane.2.take (lane.1 / 8)) else none) = some pieces ∧
   8 * pieces.flatten.length = width * parts.length ∧
   Words.value pieces.flatten = joined width (parts.map fun lane => Words.value lane.2) := by
 induction parts with
 | nil => exact ⟨[], rfl, rfl, rfl⟩
 | cons lane parts ih =>
  obtain ⟨pieces, hpieces, hlen, hval⟩ := ih fun other hother => hall other (mem_cons_of_mem lane hother)
  obtain ⟨hwid, hle⟩ := hall lane (.head _)
  have hsize : 8 * (width / 8) = width := by omega
  have htaken : (lane.2.take (width / 8)).length = width / 8 := length_take_of_le (by omega)
  refine ⟨lane.2.take (width / 8) :: pieces, ?_, ?_, ?_⟩
  · rw [mapM_cons, hpieces, hwid, if_pos (by omega)]
    rfl
  · rw [flatten_cons, length_append, htaken, Nat.mul_add, hsize, hlen, length_cons, Nat.mul_succ, Nat.add_comm]
  · rw [flatten_cons, value_append, value_take, htaken, hsize, hval]
    rfl

theorem byte_bit (byte : Byte) (i : Nat) : (byte >>> i) &&& 1#8 = 1#8 ↔ byte.getLsbD i = true := by
 constructor
 · intro h
   have hzero := congrArg (BitVec.getLsbD · 0) h
   simpa using hzero
 · intro h
   apply eq_of_getLsbD_eq
   intro j hj
   rcases Nat.eq_zero_or_pos j with rfl | hpos
   · simp [h]
   · simp [getLsbD_one, ne_of_gt hpos]

/-- The bits of a lane are set above those there. -/
theorem packLane_spec {storage : List Byte} {position : Nat} {lane : Nat × List Byte} (hholds : lane.1 ≤ 8 * lane.2.length)
  (hroom : position + lane.1 ≤ 8 * storage.length) (hclear : Words.value storage < 2 ^ position) :
  ∃ packed, packLane (storage, position) lane = some (packed, position + lane.1) ∧ packed.length = storage.length ∧
   Words.value packed = Words.value storage + 2 ^ position * (Words.value lane.2 % 2 ^ lane.1) := by
 have hbits : ∀ n ≤ lane.1, ∃ packed, (List.range n).foldlM (packBit lane.2) (storage, position) = some (packed, position + n) ∧
   packed.length = storage.length ∧
   value packed = value storage + 2 ^ position * (value lane.2 % 2 ^ n) := by
  intro n
  induction n with
  | zero => exact fun _ => ⟨storage, rfl, rfl, by rw [Nat.pow_zero, mod_one, Nat.mul_zero, Nat.add_zero]⟩
  | succ n ih =>
   intro hn
   obtain ⟨packed, hpacked, hlen, hval⟩ := ih (by omega)
   have hbelow : value packed < 2 ^ (position + n) := by
    rw [hval, pow_add]
    exact (Nat.add_lt_add_right hclear _).trans_le (by
     rw [add_comm, ← Nat.mul_succ]
     exact Nat.mul_le_mul_left _ (mod_lt _ (Nat.two_pow_pos n)))
   have hbyte : lane.2[n / 8]? = some (lane.2.getD (n / 8) 0#8) := by
    rw [getD_eq_getElem?_getD, List.getElem?_eq_getElem (by omega)]
    rfl
   have hbit := byte_bit (lane.2.getD (n / 8) 0#8) (n % 8)
   rw [← testBit_value (by decide)] at hbit
   rw [range_succ, foldlM_append, hpacked]
   refine ⟨if (value lane.2).testBit n then packed.modify ((position + n) / 8) (· ||| 1#8 <<< ((position + n) % 8)) else packed,
    ?_, ?_, ?_⟩
   · change (packBit lane.2 (packed, position + n) n >>= pure) = _
     rw [packBit, hbyte]
     simp only [bind_eq_bind, bind_some, hbit]
     rfl
   · split <;> simp [hlen]
   · rw [mod_pow_succ, Nat.mul_add, ← Nat.add_assoc, ← hval, testBit_eq_decide_div_mod_eq]
     rcases mod_two_eq_zero_or_one (value lane.2 / 2 ^ n) with hzero | hone
     · simp [hzero]
     · have hmask : (1#8 <<< ((position + n) % 8)).toNat * 2 ^ (8 * ((position + n) / 8)) = 2 ^ (position + n) := by
        have hlt : 2 ^ ((position + n) % 8) < 2 ^ 8 := Nat.pow_lt_pow_right (by decide) (mod_lt _ (by decide))
        rw [toNat_shiftLeft, toNat_one (by decide), one_shiftLeft, mod_eq_of_lt hlt, ← pow_add,
         mod_add_div]
       have hor := two_pow_add_eq_or_of_lt hbelow 1
       rw [mul_one] at hor
       rw [hone, decide_eq_true rfl, if_pos rfl, value_or_at _ _ (by omega), hmask, Nat.or_comm, ← hor, mul_one,
        ← pow_add, add_comm]
 exact hbits lane.1 le_rfl

theorem concatBits_spec {parts : List (Nat × List Byte)} {width : Nat} (hall : ∀ lane ∈ parts, lane.1 = width ∧ width ≤ 8 * lane.2.length)
  {storage : List Byte} {position : Nat} (hroom : position + width * parts.length ≤ 8 * storage.length)
  (hclear : Words.value storage < 2 ^ position) : ∃ packed, parts.foldlM packLane (storage, position) = some packed ∧
   packed.1.length = storage.length ∧
   Words.value packed.1 = Words.value storage + 2 ^ position * joined width (parts.map fun lane => Words.value lane.2) := by
 induction parts generalizing storage position with
 | nil => exact ⟨_, rfl, rfl, rfl⟩
 | cons lane parts ih =>
  obtain ⟨rfl, hle⟩ := hall lane (.head _)
  rw [length_cons, Nat.mul_succ] at hroom
  obtain ⟨packed, hpacked, hlen, hval⟩ := packLane_spec hle (by omega) hclear
  have hbelow : value packed < 2 ^ (position + lane.1) := by
   rw [hval, pow_add]
   exact (Nat.add_lt_add_right hclear _).trans_le (by
    rw [add_comm, ← Nat.mul_succ]
    exact Nat.mul_le_mul_left _ (mod_lt _ (Nat.two_pow_pos lane.1)))
  obtain ⟨final, hfinal, hlen', hval'⟩ := ih (fun other hother => hall other (mem_cons_of_mem lane hother))
   (by rw [hlen]; omega) hbelow
  refine ⟨final, by rw [foldlM_cons, hpacked]; exact hfinal, hlen'.trans hlen, ?_⟩
  rw [hval', hval, Nat.pow_add, Nat.mul_assoc, Nat.add_assoc, ← Nat.mul_add]
  rfl

/-- Lanes of one width, in order from the low bits. -/
theorem concatLanes_spec {lanes : List Scalar} {width : Nat} (hlanes : ∀ lane ∈ lanes, lane.WellFormed ∧ (part lane).1 = width ∧ lane.Narrow) :
  ∃ storage, concatLanes lanes = some storage ∧ storage.length = (width * lanes.length + 7) / 8 ∧
   Words.value storage = joined width (lanes.map fun lane => Words.value (part lane).2) := by
 have hall : ∀ lane ∈ lanes.map part, lane.1 = width ∧ width ≤ 8 * lane.2.length := by
  intro lane hmem
  obtain ⟨scalar, hscalar, rfl⟩ := List.mem_map.1 hmem
  obtain ⟨hwf, hwid, hnarrow⟩ := hlanes scalar hscalar
  exact ⟨hwid, hwid ▸ (part_spec hwf).1.2 hnarrow⟩
 have hmap : (lanes.map part).map (fun lane => Words.value lane.2) = lanes.map fun lane => Words.value (part lane).2 := by
  rw [List.map_map]
  rfl
 simp only [concatLanes]
 split
 next hbytes =>
  rcases lanes with _ | ⟨lane, lanes⟩
  · exact ⟨[], rfl, by simp, rfl⟩
  · have hmod : width % 8 = 0 := by
     have hfst := List.all_eq_true.1 hbytes _ (.head _)
     rwa [(hall _ (.head _)).1, decide_eq_true_eq] at hfst
    obtain ⟨pieces, hpieces, hlen, hval⟩ := concatBytes_spec hmod hall
    rw [length_map] at hlen
    exact ⟨pieces.flatten, by rw [hpieces]; rfl, by omega, hmap ▸ hval⟩
 next =>
  have hsum : ((lanes.map part).map (·.1)).sum = width * lanes.length := by
   rw [sum_eq_card_nsmul _ width fun n hn => ?_, length_map, length_map, smul_eq_mul, mul_comm]
   obtain ⟨lane, hlane, rfl⟩ := List.mem_map.1 hn
   exact (hall lane hlane).1
  have hzero : value (List.replicate ((width * lanes.length + 7) / 8) 0#8) = 0 :=
   (value_eq_zero _).2 fun w hw => eq_of_mem_replicate hw
  rw [hsum]
  have hroom : 0 + width * (lanes.map part).length ≤ 8 * (List.replicate ((width * lanes.length + 7) / 8) 0#8).length := by
   rw [length_map, length_replicate]
   omega
  obtain ⟨packed, hpacked, hlen, hval⟩ := concatBits_spec hall hroom (by rw [hzero]; decide)
  rw [length_replicate] at hlen
  rw [hzero, hmap, zero_add, pow_zero, one_mul] at hval
  exact ⟨packed.1, by rw [hpacked]; rfl, hlen, hval⟩

theorem foldlM_refuses {α β : Type} {f : β → α → Option β} {l : List α} {a : α} (ha : a ∈ l) (h : ∀ b, f b a = none) (b : β) :
  l.foldlM f b = none := by
 induction l generalizing b with
 | nil => cases ha
 | cons first l ih =>
  rw [foldlM_cons]
  rcases mem_cons.1 ha with rfl | hrest
  · rw [h]
    rfl
  · cases f b first with
    | none => rfl
    | some b => exact ih hrest b

/-- A lane the bytes do not hold is out of their bounds. -/
theorem concatLanes_refuses {lanes : List Scalar} {lane : Scalar} (hlane : lane ∈ lanes) (h : ¬ (part lane).1 ≤ 8 * (part lane).2.length) :
  concatLanes lanes = none := by
 have hmem := List.mem_map_of_mem (f := part) hlane
 simp only [concatLanes]
 split
 next hbytes =>
  have hmod := List.all_eq_true.1 hbytes _ hmem
  rw [decide_eq_true_eq] at hmod
  rw [map_eq_none_iff, eq_none_iff_forall_ne_some]
  intro pieces hpieces
  obtain ⟨i, hi⟩ := mem_iff_getElem?.1 hmem
  obtain ⟨-, hall⟩ := Bytes.mapM_some hpieces
  obtain ⟨piece, -, hpiece⟩ := hall i _ hi
  rw [if_neg (by omega)] at hpiece
  cases hpiece
 next =>
  rw [foldlM_refuses hmem]
  · rfl
  · intro state
    have hlast : (part lane).1 - 1 ∈ List.range (part lane).1 := mem_range.2 (by omega)
    refine foldlM_refuses hlast (fun state => ?_) state
    rw [packBit, List.getElem?_eq_none (by omega)]
    rfl

/-! ## Both ways -/

theorem bytes_ext {a b : List Byte} (hlen : a.length = b.length) (hval : Words.value a = Words.value b) : a = b := by
 apply ext_getElem hlen
 intro i hi hi'
 apply eq_of_getLsbD_eq
 intro j hj
 have hbit := congrArg (Nat.testBit · (8 * i + j)) hval
 simpa [testBit_value (show 0 < 8 by decide), mul_add_div, mul_add_mod, div_eq_of_lt hj, mod_eq_of_lt hj,
  hi, hi'] using hbit

theorem asRawBits_spec {value : Scalar} (h : value.WellFormed) : (asRawBits value).length = ((part value).1 + 7) / 8 ∧
  Words.value (asRawBits value) = value.number ∧ value.number < 2 ^ (part value).1 := by
 cases value with
 | int x => exact ⟨(fromAPInt_spec h).1, (fromAPInt_spec h).2, Valid.clear h⟩
 | float bitWidth bits =>
  obtain ⟨hlen, hval⟩ := value_fromAPFloat bitWidth bits
  have hlt : bits < 2 ^ (8 * ((bitWidth + 7) / 8)) := h.trans_le (Nat.pow_le_pow_right (by decide) (by omega))
  exact ⟨hlen, hval.trans (mod_eq_of_lt hlt), h⟩
 | rawBits storage => exact ⟨by rw [asRawBits, part]; omega, rfl, value_lt storage⟩

/-- A value and a lane width that divides its width. -/
structure Splitting where
 value : Scalar
 lanes : Nat
 laneBits : Nat
 wellFormed : value.WellFormed
 pos : 0 < laneBits
 exact : lanes * laneBits = (part value).1

/-- The lanes of the split join to the bits; a split in whole bytes needs no width. -/
def Rejoins (value : Scalar) (n width : Nat) : Prop :=
 ∃ xs, splitBitsLanes value n width = some xs ∧ (width % 8 = 0 → splitBits value n = some xs) ∧
  concatLanes (xs.map .int) = some (asRawBits value)

/-- Lanes of one width. -/
structure LaneList where
 lanes : List Scalar
 laneBits : Nat
 pos : 0 < laneBits
 wellFormed : ∀ lane ∈ lanes, lane.WellFormed ∧ (part lane).1 = laneBits

/-- The integer with the bits of a lane; an unsigned integer is itself. -/
def Same (width : Nat) (x : APInt) (lane : Scalar) : Prop :=
 IsLane x width lane.number ∧ ∀ y, lane = .int y → y.signed = false → x = y

/-- The concatenation splits into the same lanes in the same order. -/
def Resplits (lanes : List Scalar) (width : Nat) : Prop :=
 ∃ storage xs, concatLanes lanes = some storage ∧ splitBitsLanes (.rawBits storage) lanes.length width = some xs ∧
  (width % 8 = 0 → splitBits (.rawBits storage) lanes.length = some xs) ∧ Forall₂ (Same width) xs lanes

theorem splitBitsLanes_some {value : Scalar} {n width : Nat} {xs : List APInt} (h : splitBitsLanes value n width = some xs) :
  (width ≤ 64 ∨ width % 8 = 0) ∧ (0 < n ∨ width % 8 ≠ 0) := by
 rw [splitBitsLanes] at h
 split at h
 next hbits =>
  split at h
  next hle => exact ⟨.inl hle, .inr hbits⟩
  next => cases h
 next hbytes =>
  rw [splitLanes] at h
  split at h
  next hlanes => exact ⟨.inr (not_not.1 hbytes), .inl hlanes.1⟩
  next => cases h

theorem IsLane.eq {x y : APInt} {width : Nat} (h : IsLane x width y.u) (hy : Valid y) (hwid : y.width = width)
  (hunsigned : y.signed = false) : x = y := by
 refine eq_of_value h.valid hy (h.width.trans hwid.symm) (h.unsigned.trans hunsigned.symm) ?_
 simp [reading, h.unsigned, hunsigned, h.value]

theorem rejoins_iff {value : Scalar} {n width : Nat} (hwf : value.WellFormed) (hpos : 0 < width) (hexact : n * width = (part value).1) :
  Rejoins value n width ↔ width ≤ 64 ∧ (0 < n ∨ width % 8 ≠ 0) := by
 obtain ⟨hlen, hnum, hlt⟩ := asRawBits_spec hwf
 constructor
 · rintro ⟨xs, hsplit, -, hconcat⟩
   obtain ⟨hwid, hn⟩ := splitBitsLanes_some hsplit
   refine ⟨not_lt.1 fun hwide => ?_, hn⟩
   have hbytes := hwid.resolve_left (not_le.2 hwide)
   obtain ⟨ys, hys, hcnt, hlanes⟩ := splitBitsLanes_spec value hn hpos hwid
   cases hsplit.symm.trans hys
   have hfst := List.getElem?_eq_getElem (show 0 < xs.length by omega)
   have hover : ¬ (part (.int xs[0])).1 ≤ 8 * (part (.int xs[0])).2.length := by
    rw [part, (hlanes 0 _ hfst).width, leBytes, length_map, length_range]
    omega
   rw [concatLanes_refuses (List.mem_map_of_mem (f := Scalar.int) (mem_of_getElem? hfst)) hover] at hconcat
   cases hconcat
 · rintro ⟨hwid, hn⟩
   obtain ⟨xs, hsplit, hcnt, hlanes⟩ := splitBitsLanes_spec value hn hpos (.inl hwid)
   have hint : ∀ lane ∈ xs.map Scalar.int, lane.WellFormed ∧ (part lane).1 = width ∧ lane.Narrow := by
    intro lane hlane
    obtain ⟨x, hx, rfl⟩ := List.mem_map.1 hlane
    obtain ⟨k, hk⟩ := mem_iff_getElem?.1 hx
    have hislane := hlanes k x hk
    exact ⟨hislane.valid, hislane.width, hislane.width.trans_le hwid⟩
   obtain ⟨storage, hconcat, hsize, hval⟩ := concatLanes_spec hint
   have hdigits : ((xs.map Scalar.int).map fun lane => Words.value (part lane).2) = (List.range n).map (digit value.number width) := by
    apply ext_getElem?
    intro k
    rw [List.map_map, getElem?_map, getElem?_map]
    rcases lt_or_ge k n with hk | hk
    · have hget := List.getElem?_eq_getElem (hk.trans_eq hcnt.symm)
      have hislane := hlanes k _ hget
      rw [hget, getElem?_range hk, map_some, map_some, Function.comp, part, value_leBytes,
       ← hislane.valid.u_narrow (by rw [hislane.width]; omega), hislane.value, hnum]
    · rw [List.getElem?_eq_none (by omega), List.getElem?_eq_none (by rw [length_range]; omega)]
      rfl
   rw [hdigits, joined_digits, mul_comm, hexact, mod_eq_of_lt hlt] at hval
   rw [length_map, hcnt, Nat.mul_comm, hexact] at hsize
   refine ⟨xs, hsplit, fun hbytes => ?_, ?_⟩
   · have hwhole : n * width % 8 = 0 := by rw [mul_mod, hbytes, Nat.mul_zero, zero_mod]
     rw [splitBits_eq (by omega) hpos hbytes, hsplit]
   · rw [hconcat, bytes_ext (hsize.trans hlen.symm) (hval.trans hnum.symm)]

theorem resplits_iff {lanes : List Scalar} {width : Nat} (hpos : 0 < width)
  (hwf : ∀ lane ∈ lanes, lane.WellFormed ∧ (part lane).1 = width) : Resplits lanes width ↔
   (∀ lane ∈ lanes, lane.Narrow) ∧ (width ≤ 64 ∨ width % 8 = 0) ∧ (0 < lanes.length ∨ width % 8 ≠ 0) := by
 constructor
 · rintro ⟨storage, xs, hconcat, hsplit, -⟩
   refine ⟨fun lane hlane => ?_, splitBitsLanes_some hsplit⟩
   refine (part_spec (hwf lane hlane).1).1.1 (not_not.1 fun hwide => ?_)
   rw [concatLanes_refuses hlane hwide] at hconcat
   cases hconcat
 · rintro ⟨hnarrow, hwid, hn⟩
   obtain ⟨storage, hconcat, hsize, hval⟩ := concatLanes_spec fun lane hlane =>
    ⟨(hwf lane hlane).1, (hwf lane hlane).2, hnarrow lane hlane⟩
   obtain ⟨xs, hsplit, hcnt, hlanes⟩ := splitBitsLanes_spec (.rawBits storage) hn hpos hwid
   refine ⟨storage, xs, hconcat, hsplit, fun hbytes => ?_, forall₂_iff_get.2 ⟨hcnt, fun k hk hk' => ?_⟩⟩
   · have hwhole : width * lanes.length % 8 = 0 := by rw [mul_mod, hbytes, Nat.zero_mul, zero_mod]
     rw [splitBits_eq (by rw [asRawBits, Nat.mul_comm lanes.length]; omega) hpos hbytes, hsplit]
   · have hislane := hlanes k _ (List.getElem?_eq_getElem hk)
     have hlane := hwf _ (List.get_mem lanes ⟨k, hk'⟩)
     have hnum := (part_spec hlane.1).2 (hnarrow _ (List.get_mem lanes ⟨k, hk'⟩))
     have hdigit : digit (value storage) width k = (lanes.get ⟨k, hk'⟩).number := by
      rw [hval, digit_joined width (by rw [getElem?_map, List.getElem?_eq_getElem hk']; rfl), ← hnum, hlane.2]
      rfl
     rw [asRawBits, hdigit] at hislane
     refine ⟨hislane, fun y hy hunsigned => ?_⟩
     simp only [hy] at hislane hlane
     exact hislane.eq hlane.1 hlane.2 hunsigned

/-- Lanes of at most 64 bits, and wider ones that are no integers, survive both ways; whole-byte lanes need one lane. -/
theorem lanes_invert_iff (s : Splitting) (l : LaneList) :
  (Rejoins s.value s.lanes s.laneBits ↔ s.laneBits ≤ 64 ∧ (0 < s.lanes ∨ s.laneBits % 8 ≠ 0)) ∧
  (Resplits l.lanes l.laneBits ↔ (∀ lane ∈ l.lanes, lane.Narrow) ∧ (l.laneBits ≤ 64 ∨ l.laneBits % 8 = 0) ∧
   (0 < l.lanes.length ∨ l.laneBits % 8 ≠ 0)) :=
 ⟨rejoins_iff s.wellFormed s.pos s.exact, resplits_iff l.pos l.wellFormed⟩

/-- Raw bits of 256 bits in two lanes of 128. -/
def twoWideLanes : Splitting :=
 ⟨.rawBits (List.replicate 32 1#8), 2, 128, trivial, by decide, rfl⟩

theorem two_wide_lanes_refused : ¬ Rejoins twoWideLanes.value twoWideLanes.lanes twoWideLanes.laneBits := by
 rintro ⟨xs, hsplit, -, hconcat⟩
 have hlanes : splitBitsLanes twoWideLanes.value 2 128 = some (List.replicate 2 ⟨128, false, 0x101010101010101#64, some [0x101010101010101#64]⟩) := by
  decide +kernel
 cases hlanes.symm.trans hsplit
 have hrefused : concatLanes ((List.replicate 2 (⟨128, false, 0x101010101010101#64, some [0x101010101010101#64]⟩ : APInt)).map .int) = none := by
  decide +kernel
 rw [hrefused] at hconcat
 cases hconcat

end Tir.Lang.Lanes
