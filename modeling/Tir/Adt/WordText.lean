import Tir.Adt.WordOrder
import Mathlib.Data.Nat.Digits.Lemmas
import Mathlib.Data.Nat.Size

/-!
# Integers as text

`Display`, `Binary` and `LowerHex` write an integer's digits, a wide one in chunks of 19 decimal or 16 hexadecimal digits, and
`from_str` multiplies and adds digit by digit over the limbs. Each text spells the value (`Spells`), and reading a text that
spells a number gives that number at its own width (`reads_of_spells`).
-/

open List BitVec

namespace Tir.Adt.Limbs

open Tir.Words

/-! ## Text -/

/-- A number without leading zeros, in lower case. -/
def showRadix (radix n : Nat) : List Char :=
 if n = 0 then ['0'] else (Nat.digits radix n).reverse.map Nat.digitChar

/-- Zeros in front up to a length. -/
def pad (length : Nat) (text : List Char) : List Char :=
 List.replicate (length - text.length) '0' ++ text

def showInt (i : Int) : List Char :=
 if i < 0 then '-' :: showRadix 10 i.natAbs else showRadix 10 i.natAbs

def toDigit (radix : Nat) (c : Char) : Option Nat :=
 let n := c.toNat
 let digit := if 48 ≤ n ∧ n ≤ 57 then n - 48 else if 97 ≤ n ∧ n ≤ 122 then n - 87 else if 65 ≤ n ∧ n ≤ 90 then n - 55 else radix
 if digit < radix then some digit else none

/-- The code points of Unicode's white space. -/
def isWhitespace (c : Char) : Bool :=
 let n := c.toNat
 (9 ≤ n && n ≤ 13) || (0x2000 ≤ n && n ≤ 0x200A) || [0x20, 0x85, 0xA0, 0x1680, 0x2028, 0x2029, 0x202F, 0x205F, 0x3000].contains n

def trim (s : List Char) : List Char :=
 ((s.dropWhile isWhitespace).reverse.dropWhile isWhitespace).reverse

/-! ## Printing -/

namespace APInt

def decimalChunk : Nat := 10000000000000000000

/-- One pass of the division by the chunk, from the top word down. -/
def divChunk : List Word → List Word × Nat
 | [] => ([], 0)
 | word :: words =>
  let (quotient, remainder) := divChunk words
  let current := remainder * 2 ^ 64 + word.toNat
  (BitVec.ofNat 64 (current / decimalChunk) :: quotient, current % decimalChunk)

theorem divChunk_spec (words : List Word) : (divChunk words).2 < decimalChunk ∧
  Words.value (divChunk words).1 * decimalChunk + (divChunk words).2 = Words.value words := by
 induction words with
 | nil => exact ⟨Nat.mod_lt 0 (by decide), rfl⟩
 | cons word words ih =>
  obtain ⟨hlt, hval⟩ := ih
  have hquotient : ((divChunk words).2 * 2 ^ 64 + word.toNat) / decimalChunk < 2 ^ 64 := by
   rw [Nat.div_lt_iff_lt_mul (by decide)]
   rw [decimalChunk] at hlt ⊢
   omega
  have hdivide := Nat.div_add_mod ((divChunk words).2 * 2 ^ 64 + word.toNat) decimalChunk
  refine ⟨Nat.mod_lt _ (by decide), ?_⟩
  rw [divChunk, value_cons, value_cons, ← hval, toNat_ofNat, Nat.mod_eq_of_lt hquotient]
  linarith

/-- The decimal chunks, the lowest first. -/
def chunksOf (words : List Word) : List Nat :=
 if words.any (· != 0#64) then
  (divChunk words).2 :: chunksOf (divChunk words).1
 else []
termination_by Words.value words
decreasing_by
 have hval := (divChunk_spec words).2
 have hne : Words.value words ≠ 0 := by
  have hany : words.any (· != 0#64) = true := by assumption
  obtain ⟨word, hword, hset⟩ := any_eq_true.1 hany
  exact fun hzero => bne_iff_ne.1 hset ((value_eq_zero words).1 hzero word hword)
 rw [decimalChunk] at hval
 omega

def decimal (x : APInt) : List Char :=
 if x.width ≤ 64 then showRadix 10 x.value.toNat
 else
  let chunks := chunksOf x.limbs
  showRadix 10 (chunks.getLast?.getD 0) ++ chunks.dropLast.reverse.flatMap fun chunk => pad 19 (showRadix 10 chunk)

def display (x : APInt) : Option (List Char) :=
 if x.signed ∧ x.width ≤ 64 then some (showInt x.toI64.toInt)
 else if x.isNegative then x.neg.map fun negated => '-' :: negated.decimal
 else some x.decimal

def binary (x : APInt) : List Char :=
 (List.range x.width).reverse.map fun i => if x.bit i then '1' else '0'

def lowerHex (x : APInt) : List Char :=
 let top := (rposition (fun i => x.limbs.getD i 0#64 != 0#64) x.limbs.length).getD 0
 showRadix 16 (x.limbs.getD top 0#64).toNat ++ (x.limbs.take top).reverse.flatMap fun limb => pad 16 (showRadix 16 limb.toNat)

/-! ## Parsing -/

/-- The words times the radix plus a carry, and the carry out of them. -/
def mulAdd (radix : Nat) : List Word → Nat → List Word × Nat
 | [], carry => ([], carry)
 | word :: words, carry =>
  let current := word.toNat * radix + carry
  let (rest, carry) := mulAdd radix words (current / 2 ^ 64)
  (BitVec.ofNat 64 current :: rest, carry)

def pushDigit (radix : Nat) (words : List Word) (digit : Nat) : List Word :=
 let (words, carry) := mulAdd radix words digit
 if carry ≠ 0 then words ++ [BitVec.ofNat 64 carry] else words

/-- The radix that a prefix tells, and the text after it. -/
def radixOf : List Char → Nat × List Char
 | '0' :: 'x' :: rest => (16, rest)
 | '0' :: 'X' :: rest => (16, rest)
 | '0' :: 'o' :: rest => (8, rest)
 | '0' :: 'O' :: rest => (8, rest)
 | '0' :: 'b' :: rest => (2, rest)
 | '0' :: 'B' :: rest => (2, rest)
 | s => (10, s)

def fromStr (text : List Char) : Except String APInt :=
 let s := trim text
 if s = [] then .error "empty string"
 else
  let (radix, digits) := radixOf s
  let clean := digits.filter (· ≠ '_')
  if clean = [] then .error ("no digits in '" ++ String.ofList s ++ "'")
  else do
   let words ← clean.foldlM (fun words ch => match toDigit radix ch with
    | some digit => .ok (pushDigit radix words digit)
    | none => .error ("invalid digit '" ++ String.ofList [ch] ++ "' for radix " ++ toString radix)) [0#64]
   let top := words.length - 1
   .ok (fromWords (max (64 * top + 64 - leadingZeros (words.getD top 0#64)) 1) false words)

end APInt

/-! ## What a text spells -/

/-- Digits of a radix, the highest first. -/
def numeral (radix : Nat) (digits : List Nat) : Nat :=
 digits.foldl (fun n digit => n * radix + digit) 0

def Spells (radix n : Nat) (text : List Char) : Prop :=
 ∃ digits : List Nat, text = digits.map Nat.digitChar ∧ (∀ digit ∈ digits, digit < radix) ∧ numeral radix digits = n

theorem foldl_numeral (radix n : Nat) (digits : List Nat) :
  digits.foldl (fun n digit => n * radix + digit) n = n * radix ^ digits.length + numeral radix digits := by
 induction digits generalizing n with
 | nil => simp [numeral]
 | cons digit digits ih =>
  rw [numeral, foldl_cons, foldl_cons, ih, ih (0 * radix + digit), length_cons, pow_succ]
  ring

theorem numeral_reverse (radix : Nat) (digits : List Nat) : numeral radix digits.reverse = Nat.ofDigits radix digits := by
 rw [numeral, foldl_reverse, Nat.ofDigits_eq_foldr]
 congr
 funext digit n
 rw [mul_comm, add_comm, Nat.cast_id]

section Radix

variable {radix n m : Nat} {text rest : List Char}

theorem Spells.append (h : Spells radix n text) (h' : Spells radix m rest) :
  Spells radix (n * radix ^ rest.length + m) (text ++ rest) := by
 obtain ⟨digits, rfl, hlt, rfl⟩ := h
 obtain ⟨digits', rfl, hlt', rfl⟩ := h'
 refine ⟨digits ++ digits', by rw [map_append], fun digit hdigit => ?_, ?_⟩
 · rcases mem_append.1 hdigit with hdigit | hdigit
   · exact hlt digit hdigit
   · exact hlt' digit hdigit
 · rw [numeral, foldl_append, foldl_numeral, length_map]
   rfl

theorem spells_zeros (hradix : 0 < radix) (count : Nat) : Spells radix 0 (List.replicate count '0') := by
 refine ⟨List.replicate count 0, by rw [map_replicate]; rfl, fun digit hdigit => ?_, ?_⟩
 · rwa [eq_of_mem_replicate hdigit]
 · have hzero := numeral_reverse radix (List.replicate count 0)
   rwa [List.reverse_replicate, Nat.ofDigits_replicate_zero] at hzero

theorem spells_showRadix (hradix : 1 < radix) (n : Nat) : Spells radix n (showRadix radix n) := by
 rw [showRadix]
 split
 next hzero =>
  rw [hzero]
  exact spells_zeros (by omega) 1
 next =>
  refine ⟨_, rfl, fun digit hdigit => Nat.digits_lt_base hradix (mem_reverse.1 hdigit), ?_⟩
  rw [numeral_reverse, Nat.ofDigits_digits]

theorem showRadix_ne_nil (radix n : Nat) : showRadix radix n ≠ [] := by
 rw [showRadix]
 split
 next => exact cons_ne_nil _ _
 next hne => simpa [Nat.digits_eq_nil_iff_eq_zero] using hne

theorem length_showRadix {length : Nat} (hradix : 1 < radix) (hlen : 0 < length) (h : n < radix ^ length) :
  (showRadix radix n).length ≤ length := by
 rw [showRadix]
 split
 next => exact hlen
 next =>
  rw [length_map, length_reverse, Nat.digits_length_le_iff hradix]
  exact h

theorem spells_pad (length : Nat) (hradix : 0 < radix) (h : Spells radix n text) : Spells radix n (pad length text) := by
 have hpad := (spells_zeros hradix (length - text.length)).append h
 rwa [Nat.zero_mul, Nat.zero_add] at hpad

theorem length_pad {length : Nat} (h : text.length ≤ length) : (pad length text).length = length := by
 rw [pad, length_append, length_replicate]
 omega

/-- Padded chunks spell the number that they are digits of. -/
theorem spells_chunks (radix length : Nat) (hradix : 1 < radix) (hlen : 0 < length) {chunks : List Nat}
  (h : ∀ chunk ∈ chunks, chunk < radix ^ length) (top : Nat) :
  Spells radix (Nat.ofDigits (radix ^ length) (chunks ++ [top]))
   (showRadix radix top ++ chunks.reverse.flatMap fun chunk => pad length (showRadix radix chunk)) := by
 induction chunks with
 | nil => simpa using spells_showRadix hradix top
 | cons chunk chunks ih =>
  have hchunk := length_showRadix hradix hlen (h chunk (.head _))
  have happend := (ih fun other hother => h other (mem_cons_of_mem chunk hother)).append
   (spells_pad length (by omega) (spells_showRadix hradix chunk))
  rw [length_pad hchunk, List.append_assoc] at happend
  rw [reverse_cons, flatMap_append, flatMap_singleton, List.cons_append, Nat.ofDigits_cons, add_comm, mul_comm]
  exact happend

end Radix

namespace APInt

variable {x : APInt}

/-! ## The texts of an integer -/

theorem ofDigits_limbs (words : List Word) : Nat.ofDigits (2 ^ 64) (words.map BitVec.toNat) = Words.value words := by
 induction words with
 | nil => rfl
 | cons word words ih => rw [map_cons, Nat.ofDigits_cons, ih, value_cons]

theorem chunksOf_spec (words : List Word) : Nat.ofDigits decimalChunk (chunksOf words) = Words.value words ∧
  ∀ chunk ∈ chunksOf words, chunk < decimalChunk := by
 induction words using chunksOf.induct with
 | case1 words hany ih =>
  obtain ⟨hlt, hval⟩ := divChunk_spec words
  rw [chunksOf, if_pos hany, Nat.ofDigits_cons, ih.1, ← hval, add_comm, mul_comm]
  exact ⟨rfl, forall_mem_cons.2 ⟨hlt, ih.2⟩⟩
 | case2 words hnone =>
  rw [chunksOf, if_neg hnone]
  refine ⟨Eq.symm ((value_eq_zero words).2 fun word hword => ?_), nofun⟩
  simpa using fun h => hnone (any_eq_true.2 ⟨word, hword, bne_iff_ne.2 h⟩)

theorem spells_decimal (hx : Valid x) : Spells 10 x.u x.decimal ∧ x.decimal ≠ [] := by
 rw [decimal]
 split
 next hnarrow =>
  rw [hx.u_narrow (not_lt.2 hnarrow)]
  exact ⟨spells_showRadix (by decide) _, showRadix_ne_nil _ _⟩
 next hwide =>
  obtain ⟨hval, hlt⟩ := chunksOf_spec x.limbs
  refine ⟨?_, by simp [showRadix_ne_nil]⟩
  have hchunks := spells_chunks 10 19 (by decide) (by decide)
   (fun chunk hchunk => hlt chunk (mem_of_mem_dropLast hchunk)) ((chunksOf x.limbs).getLast?.getD 0)
  have hsplit : Nat.ofDigits (10 ^ 19) ((chunksOf x.limbs).dropLast ++ [(chunksOf x.limbs).getLast?.getD 0]) = x.u := by
   rw [u, ← hval]
   rcases eq_nil_or_concat (chunksOf x.limbs) with hnil | ⟨init, top, hconcat⟩
   · rw [hnil]
     rfl
   · rw [hconcat]
     simp [decimalChunk]
  rwa [hsplit] at hchunks

theorem rposition_none {p : Nat → Bool} {n : Nat} (h : ∀ k < n, p k = false) : rposition p n = none := by
 induction n with
 | zero => rfl
 | succ n ih =>
  rw [rposition, h n (Nat.lt_succ_self n), if_neg Bool.false_ne_true]
  exact ih fun k hk => h k (Nat.lt_succ_of_lt hk)

theorem spells_lowerHex (x : APInt) : Spells 16 x.u x.lowerHex ∧ x.lowerHex ≠ [] := by
 rw [lowerHex]
 refine ⟨?_, by simp [showRadix_ne_nil]⟩
 have htop : ∀ top < x.limbs.length, (∀ k, top < k → k < x.limbs.length → (x.limbs.getD k 0#64 != 0#64) = false) → Spells 16 x.u
   (showRadix 16 (x.limbs.getD top 0#64).toNat ++ (x.limbs.take top).reverse.flatMap fun limb => pad 16 (showRadix 16 limb.toNat)) := by
  intro top hlt habove
  have hdrop : Words.value (x.limbs.drop (top + 1)) = 0 := by
   rw [value_eq_zero]
   intro limb hlimb
   obtain ⟨k, hk, rfl⟩ := mem_iff_getElem.1 hlimb
   rw [length_drop] at hk
   have hzero := habove (top + 1 + k) (by omega) (by omega)
   rw [getD_eq_getElem?_getD, List.getElem?_eq_getElem (by omega)] at hzero
   rw [getElem_drop]
   simpa using hzero
  have hwhole : x.u = Words.value (x.limbs.take (top + 1)) := by
   rw [u, ← take_append_drop (top + 1) x.limbs, value_append, hdrop, Nat.mul_zero, Nat.add_zero, take_append_drop]
  have hlimbs : ∀ chunk ∈ (x.limbs.take top).map BitVec.toNat, chunk < 16 ^ 16 := by
   intro chunk hlimb
   obtain ⟨limb, -, rfl⟩ := mem_map.1 hlimb
   exact limb.isLt
  have hchunks := spells_chunks 16 16 (by decide) (by decide) hlimbs (x.limbs.getD top 0#64).toNat
  have hdigits : (x.limbs.take top).map BitVec.toNat ++ [(x.limbs.getD top 0#64).toNat] = (x.limbs.take (top + 1)).map BitVec.toNat := by
   rw [take_succ_eq_append_getElem hlt, map_append, getD_eq_getElem?_getD, List.getElem?_eq_getElem hlt]
   rfl
  rwa [hdigits, show 16 ^ 16 = 2 ^ 64 by decide, ofDigits_limbs, ← hwhole, ← map_reverse, flatMap_map] at hchunks
 by_cases hsome : ∃ k < x.limbs.length, (x.limbs.getD k 0#64 != 0#64) = true
 · obtain ⟨top, heq, hlt, -, habove⟩ := rposition_spec hsome
   rw [heq]
   exact htop top hlt habove
 · have hnone : ∀ k < x.limbs.length, (x.limbs.getD k 0#64 != 0#64) = false := fun k hk => Bool.eq_false_iff.2 fun h => hsome ⟨k, hk, h⟩
   rw [rposition_none hnone]
   exact htop 0 (by simp [limbs]) fun k _ hk => hnone k hk

theorem spells_binary (hx : Valid x) : Spells 2 x.u x.binary ∧ x.binary ≠ [] := by
 have hbits : ∀ n, Spells 2 (x.u % 2 ^ n) ((List.range n).reverse.map fun i => if x.bit i then '1' else '0') := by
  intro n
  induction n with
  | zero => exact ⟨[], rfl, nofun, by simp [numeral, Nat.mod_one]⟩
  | succ n ih =>
   have hdigit : Spells 2 (x.u / 2 ^ n % 2) [if x.bit n then '1' else '0'] := by
    rw [bit_eq, Nat.testBit_eq_decide_div_mod_eq]
    rcases Nat.mod_two_eq_zero_or_one (x.u / 2 ^ n) with h | h
    · rw [h]
      exact ⟨[0], rfl, by decide, rfl⟩
    · rw [h]
      exact ⟨[1], rfl, by decide, rfl⟩
   have happend := hdigit.append ih
   rw [length_map, length_reverse, length_range, add_comm, mul_comm, ← Nat.mod_pow_succ] at happend
   rw [range_succ, List.reverse_append]
   exact happend
 have hall := hbits x.width
 rw [Nat.mod_eq_of_lt hx.clear] at hall
 have hpos := hx.width_pos
 exact ⟨hall, by simp [binary]; omega⟩

/-! ## What is read -/

/-- The words of a number, none too many. -/
def Normal (words : List Word) : Prop :=
 0 < words.length ∧ (words.length = 1 ∨ 2 ^ (64 * (words.length - 1)) ≤ Words.value words)

theorem normal_zero : Normal [0#64] :=
 ⟨Nat.one_pos, .inl rfl⟩

theorem mulAdd_spec (radix : Nat) (words : List Word) (carry : Nat) : (mulAdd radix words carry).1.length = words.length ∧
  Words.value (mulAdd radix words carry).1 + 2 ^ (64 * words.length) * (mulAdd radix words carry).2 =
   Words.value words * radix + carry := by
 induction words generalizing carry with
 | nil => simp [mulAdd]
 | cons word words ih =>
  obtain ⟨hlen, hval⟩ := ih ((word.toNat * radix + carry) / 2 ^ 64)
  have hdivide := Nat.div_add_mod (word.toNat * radix + carry) (2 ^ 64)
  refine ⟨congrArg (· + 1) hlen, ?_⟩
  rw [mulAdd, value_cons, value_cons, length_cons, Nat.mul_succ, pow_add, toNat_ofNat]
  linear_combination 2 ^ 64 * hval + hdivide

theorem mulAdd_carry {radix : Nat} (hradix : radix ≤ 16) (words : List Word) {carry : Nat} (hcarry : carry < 2 ^ 64) :
  (mulAdd radix words carry).2 < 2 ^ 64 := by
 induction words generalizing carry with
 | nil => exact hcarry
 | cons word words ih =>
  refine ih ?_
  have hproduct := Nat.mul_le_mul (Nat.le_of_lt_succ (show word.toNat < 2 ^ 64 - 1 + 1 by omega)) hradix
  omega

theorem pushDigit_spec {radix digit : Nat} (hpos : 0 < radix) (hradix : radix ≤ 16) (hdigit : digit < 2 ^ 64) {words : List Word}
  (h : Normal words) : Normal (pushDigit radix words digit) ∧
   Words.value (pushDigit radix words digit) = Words.value words * radix + digit := by
 obtain ⟨hlen, hval⟩ := mulAdd_spec radix words digit
 have hcarry := mulAdd_carry hradix words hdigit
 rw [pushDigit]
 generalize mulAdd radix words digit = result at hlen hval hcarry ⊢
 obtain ⟨rest, carry⟩ := result
 dsimp only at hlen hval hcarry ⊢
 split
 next hsome =>
  have hpush : Words.value (rest ++ [BitVec.ofNat 64 carry]) = Words.value words * radix + digit := by
   rw [value_append, hlen, ← hval, value_cons, value_nil, toNat_ofNat, Nat.mod_eq_of_lt hcarry, Nat.mul_zero, Nat.add_zero]
  refine ⟨⟨by simp, .inr ?_⟩, hpush⟩
  rw [hpush, ← hval, length_append, hlen]
  exact (Nat.le_mul_of_pos_right _ (Nat.pos_of_ne_zero hsome)).trans (Nat.le_add_left ..)
 next hnone =>
  rw [not_not.1 hnone, Nat.mul_zero, Nat.add_zero] at hval
  refine ⟨⟨hlen ▸ h.1, ?_⟩, hval⟩
  rw [hlen, hval]
  exact h.2.imp_right fun hle => hle.trans ((Nat.le_mul_of_pos_right _ hpos).trans (Nat.le_add_right ..))

/-- The top word's leading zeros tell the number's length. -/
theorem width_eq {words : List Word} (h : Normal words) :
  64 * (words.length - 1) + 64 - leadingZeros (words.getD (words.length - 1) 0#64) = (Words.value words).size := by
 obtain ⟨hlen, hlarge⟩ := h
 have hlast : words = words.take (words.length - 1) ++ [words.getD (words.length - 1) 0#64] := by
  rw [getD_eq_getElem?_getD, List.getElem?_eq_getElem (by omega), Option.getD_some,
   ← take_succ_eq_append_getElem (by omega), Nat.sub_add_cancel hlen, take_length]
 have hval := congrArg Words.value hlast
 rw [value_append, value_cons, value_nil, Nat.mul_zero, Nat.add_zero, length_take_of_le (Nat.sub_le ..)] at hval
 have hlow := value_lt (words.take (words.length - 1))
 rw [length_take_of_le (Nat.sub_le ..)] at hlow
 generalize words.getD (words.length - 1) 0#64 = top at hval ⊢
 generalize hn : words.length - 1 = n at hval hlow hlarge ⊢
 by_cases hzero : top = 0#64
 · have hfull : leadingZeros 0#64 = 64 := by decide
   rw [hzero, toNat_zero, Nat.mul_zero, Nat.add_zero] at hval
   rcases hlarge with hone | hlarge
   · obtain rfl : n = 0 := by omega
     have hnil : Words.value words = 0 := by omega
     rw [hzero, hfull, hnil, Nat.size_zero]
   · omega
 · obtain ⟨hlt, hset, hclear⟩ := leadingZeros_spec hzero
   have hge : 2 ^ (63 - leadingZeros top) ≤ top.toNat := Nat.ge_two_pow_of_testBit (by rwa [testBit_toNat])
   have hless : top.toNat < 2 ^ (64 - leadingZeros top) := by
    apply Nat.lt_pow_two_of_testBit
    intro i hi
    rw [testBit_toNat]
    exact hclear i hi
   have hplace : 64 * n + 64 - leadingZeros top = 64 * n + (63 - leadingZeros top) + 1 := by omega
   apply le_antisymm
   · rw [hplace, Nat.succ_le_iff, Nat.lt_size, pow_add, hval]
     exact (Nat.mul_le_mul_left _ hge).trans (Nat.le_add_left ..)
   · rw [Nat.size_le, hval, show 64 * n + 64 - leadingZeros top = 64 * n + (64 - leadingZeros top) by omega, pow_add]
     have hstep := Nat.mul_le_mul_left (2 ^ (64 * n)) (Nat.succ_le_of_lt hless)
     rw [Nat.mul_succ] at hstep
     omega

theorem toDigit_digitChar {radix digit : Nat} (hradix : radix ≤ 16) (h : digit < radix) : toDigit radix (Nat.digitChar digit) = some digit := by
 have hall : ∀ radix ≤ 16, ∀ digit < radix, toDigit radix (Nat.digitChar digit) = some digit := by decide
 exact hall radix hradix digit h

theorem foldlM_digits {radix : Nat} (hpos : 0 < radix) (hradix : radix ≤ 16) {digits : List Nat} (hdigits : ∀ digit ∈ digits, digit < radix)
  {words : List Word} (h : Normal words) : ∃ result, (digits.map Nat.digitChar).foldlM (fun words ch => match toDigit radix ch with
   | some digit => .ok (pushDigit radix words digit)
   | none => .error ("invalid digit '" ++ String.ofList [ch] ++ "' for radix " ++ toString radix)) words =
    (.ok result : Except String (List Word)) ∧ Normal result ∧
   Words.value result = digits.foldl (fun n digit => n * radix + digit) (Words.value words) := by
 induction digits generalizing words with
 | nil => exact ⟨words, rfl, h, rfl⟩
 | cons digit digits ih =>
  have hdigit := hdigits digit (.head _)
  obtain ⟨hnormal, hval⟩ := pushDigit_spec hpos hradix (show digit < 2 ^ 64 by omega) h
  obtain ⟨result, hres, hnormal', hval'⟩ := ih (fun other hother => hdigits other (mem_cons_of_mem digit hother)) hnormal
  refine ⟨result, ?_, hnormal', ?_⟩
  · rw [map_cons, foldlM_cons, toDigit_digitChar hradix hdigit]
    exact hres
  · rw [hval', hval]
    rfl

/-- Reading a text gives an unsigned integer of the number's own width. -/
def Reads (text : List Char) (n : Nat) : Prop :=
 ∃ y, fromStr text = .ok y ∧ Valid y ∧ y.signed = false ∧ y.width = max n.size 1 ∧ y.u = n

theorem trim_eq {s : List Char} (h : ∀ c ∈ s, isWhitespace c = false) : trim s = s := by
 have hkeeps : ∀ t : List Char, (∀ c ∈ t, isWhitespace c = false) → t.dropWhile isWhitespace = t := by
  intro t ht
  cases t with
  | nil => rfl
  | cons c t => rw [dropWhile_cons, ht c mem_cons_self, if_neg Bool.false_ne_true]
 rw [trim, hkeeps s h, hkeeps s.reverse fun c hc => h c (mem_reverse.1 hc), reverse_reverse]

theorem digitChar_plain {digit : Nat} (h : digit < 16) : isWhitespace (Nat.digitChar digit) = false ∧ Nat.digitChar digit ≠ '_' := by
 have hall : ∀ digit < 16, isWhitespace (Nat.digitChar digit) = false ∧ Nat.digitChar digit ≠ '_' := by decide
 exact hall digit h

theorem reads_of_spells {radix n : Nat} {text s : List Char} (hpos : 0 < radix) (hradix : radix ≤ 16) (h : Spells radix n text)
  (hne : text ≠ []) (hof : radixOf s = (radix, text)) (hs : s ≠ []) (hplain : ∀ c ∈ s, isWhitespace c = false) : Reads s n := by
 obtain ⟨digits, rfl, hdigits, hn⟩ := h
 have hclean : (digits.map Nat.digitChar).filter (· ≠ '_') = digits.map Nat.digitChar := by
  rw [filter_eq_self]
  intro c hc
  obtain ⟨digit, hdigit, rfl⟩ := mem_map.1 hc
  exact decide_eq_true (digitChar_plain ((hdigits digit hdigit).trans_le hradix)).2
 obtain ⟨words, hwords, hnormal, hval⟩ := foldlM_digits hpos hradix hdigits normal_zero
 have hnum : Words.value words = n := hval.trans hn
 have hwid := width_eq hnormal
 rw [hnum] at hwid
 obtain ⟨hvalid, hu⟩ := fromWords_spec (show 0 < max n.size 1 from Nat.one_pos.trans_le (le_max_right ..)) false words
 refine ⟨fromWords (max n.size 1) false words, ?_, hvalid, rfl, rfl, ?_⟩
 · rw [fromStr, trim_eq hplain, if_neg hs, hof]
   dsimp only
   rw [hclean, if_neg hne, hwords, ← hwid]
   rfl
 · rw [hu, hnum]
   exact Nat.mod_eq_of_lt ((Nat.lt_size_self n).trans_le (Nat.pow_le_pow_right (by decide) (le_max_left ..)))

theorem plain_of_spells {radix n : Nat} {text : List Char} (hradix : radix ≤ 16) (h : Spells radix n text) :
  ∀ c ∈ text, isWhitespace c = false := by
 obtain ⟨digits, rfl, hdigits, -⟩ := h
 intro c hc
 obtain ⟨digit, hdigit, rfl⟩ := mem_map.1 hc
 exact (digitChar_plain ((hdigits digit hdigit).trans_le hradix)).1

/-- A decimal text has no prefix of another radix. -/
theorem radixOf_decimal {n : Nat} {text : List Char} (h : Spells 10 n text) : radixOf text = (10, text) := by
 obtain ⟨digits, rfl, hdigits, -⟩ := h
 have hall : ∀ digit < 10, Nat.digitChar digit ∉ ['x', 'X', 'o', 'O', 'b', 'B'] := by decide
 rcases digits with _ | ⟨first, _ | ⟨second, digits⟩⟩
 · rfl
 · rw [map_cons, map_nil, radixOf] <;> simp
 · have hsnd := hall second (hdigits second (by simp))
   rw [map_cons, map_cons, radixOf]
   all_goals
    intro rest hrest
    simp_all

theorem print_parse (x : {x : APInt // Valid x ∧ x.signed = false}) :
  (∃ text, x.1.display = some text ∧ Reads text x.1.u) ∧ Reads ('0' :: 'x' :: x.1.lowerHex) x.1.u ∧
   Reads ('0' :: 'b' :: x.1.binary) x.1.u := by
 obtain ⟨x, hx, hunsigned⟩ := x
 obtain ⟨hdecimal, hdecimal_ne⟩ := spells_decimal hx
 obtain ⟨hhex, hhex_ne⟩ := spells_lowerHex x
 obtain ⟨hbinary, hbinary_ne⟩ := spells_binary hx
 refine ⟨⟨x.decimal, ?_, ?_⟩, ?_, ?_⟩
 · simp [display, isNegative, hunsigned]
 · exact reads_of_spells (by decide) (by decide) hdecimal hdecimal_ne (radixOf_decimal hdecimal) hdecimal_ne (plain_of_spells (by decide) hdecimal)
 · refine reads_of_spells (by decide) (by decide) hhex hhex_ne rfl (cons_ne_nil _ _) ?_
   exact forall_mem_cons.2 ⟨by decide, forall_mem_cons.2 ⟨by decide, plain_of_spells (by decide) hhex⟩⟩
 · refine reads_of_spells (by decide) (by decide) hbinary hbinary_ne rfl (cons_ne_nil _ _) ?_
   exact forall_mem_cons.2 ⟨by decide, forall_mem_cons.2 ⟨by decide, plain_of_spells (by decide) hbinary⟩⟩

end APInt

end Tir.Adt.Limbs
