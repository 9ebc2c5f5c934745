import Tir.Bitblast.Gates

/-!
# Arithmetic circuits

Bit vectors are lists of literals, the least significant first. Under an assignment a vector spells a number
(`Valued.Spells`), and each circuit is specified by the number its output spells.
-/

open List Nat

namespace Tir.Bitblast

open Tir.Sat

namespace Blaster

def muxBits (s : Lit) : List Lit → List Lit → Blast (List Lit)
 | x :: a, y :: b => do
   let l ← gateMux s x y
   let rest ← muxBits s a b
   return l :: rest
 | _, _ => return []

def eqBits (a b : List Lit) : Blast Lit := do
 go a b (← getOne)
where
 go : List Lit → List Lit → Lit → Blast Lit
 | x :: a, y :: b, acc => do
   let xor ← gateXor x y
   let acc ← gateAnd acc xor.negate
   go a b acc
 | _, _, acc => return acc

def adder : List Lit → List Lit → Lit → Blast (List Lit × Lit)
 | ai :: a, bi :: b, carry => do
   let axb ← gateXor ai bi
   let s ← gateXor axb carry
   let ab ← gateAnd ai bi
   let cx ← gateAnd carry axb
   let carry ← gateOr ab cx
   let (sum, carry) ← adder a b carry
   return (s :: sum, carry)
 | _, _, carry => return ([], carry)

def invert (bits : List Lit) : List Lit :=
 bits.map Lit.negate

def subCarry (a b : List Lit) : Blast (List Lit × Lit) := do
 adder a (invert b) (← getOne)

def subtract (a b : List Lit) : Blast (List Lit) := do
 return (← subCarry a b).1

def negate (a : List Lit) : Blast (List Lit) := do
 let zero ← zero
 let one ← getOne
 return (← adder (invert a) (replicate a.length zero) one).1

def uge (a b : List Lit) : Blast Lit := do
 return (← subCarry a b).2

def orReduce (bits : List Lit) : Blast Lit := do
 go bits (← zero)
where
 go : List Lit → Lit → Blast Lit
 | b :: bits, acc => do
   let acc ← gateOr acc b
   go bits acc
 | [], acc => return acc

def nor (bits : List Lit) : Blast Lit := do
 return (← orReduce bits).negate

def constBits (value w : Nat) : Blast (List Lit) := do
 let one ← getOne
 let zero ← zero
 return (List.range w).map fun i => if value.testBit i then one else zero

end Blaster

namespace Valued

/-- The number that a vector of literals spells. -/
def Spells (s : Valued) : List Lit → Nat → Prop
 | [], n => n = 0
 | l :: bits, n => ∃ v k, s.Means l v ∧ Spells s bits k ∧ n = v.toNat + 2 * k

variable {s t : Valued} {a b bits : List Lit} {n k : Nat} {l c : Lit} {v : Bool}

theorem Spells.mono (h : s.Spells bits n) (hext : s.Extends t) : t.Spells bits n := by
 induction bits generalizing n with
 | nil => exact h
 | cons l bits ih =>
  obtain ⟨v, k, hl, hbits, heq⟩ := h
  exact ⟨v, k, hl.mono hext, ih hbits, heq⟩

theorem Spells.unique (h : s.Spells bits n) (h' : s.Spells bits k) : n = k := by
 induction bits generalizing n k with
 | nil => exact h.trans h'.symm
 | cons l bits ih =>
  obtain ⟨v, n, hv, hn, rfl⟩ := h
  obtain ⟨w, k, hw, hk, rfl⟩ := h'
  rw [hv.unique hw, ih hn hk]

theorem Spells.lt (h : s.Spells bits n) : n < 2 ^ bits.length := by
 induction bits generalizing n with
 | nil => exact h ▸ Nat.one_pos
 | cons l bits ih =>
  obtain ⟨v, k, -, hbits, rfl⟩ := h
  have hv := v.toNat_lt
  grind

theorem spells_cons (hl : s.Means l v) (h : s.Spells bits n) : s.Spells (l :: bits) (v.toNat + 2 * n) :=
 ⟨v, n, hl, h, rfl⟩

theorem spells_append {low high : List Lit} (h : s.Spells low n) (h' : s.Spells high k) :
  s.Spells (low ++ high) (n + 2 ^ low.length * k) := by
 induction low generalizing n with
 | nil =>
  obtain rfl : n = 0 := h
  rwa [nil_append, length_nil, pow_zero, one_mul, zero_add]
 | cons l low ih =>
  obtain ⟨v, m, hl, hlow, rfl⟩ := h
  refine ⟨v, _, hl, ih hlow, ?_⟩
  grind

theorem spells_split {low high : List Lit} (h : s.Spells (low ++ high) n) :
  s.Spells low (n % 2 ^ low.length) ∧ s.Spells high (n / 2 ^ low.length) := by
 induction low generalizing n with
 | nil => exact ⟨mod_one n, by rwa [length_nil, pow_zero, Nat.div_one]⟩
 | cons l low ih =>
  obtain ⟨v, k, hl, hrest, rfl⟩ := h
  obtain ⟨hlow, hhigh⟩ := ih hrest
  have hv := v.toNat_lt
  have hdiv : (v.toNat + 2 * k) / 2 = k := by omega
  have hmod : (v.toNat + 2 * k) % 2 = v.toNat := by omega
  refine ⟨⟨v, _, hl, hlow, ?_⟩, ?_⟩
  · rw [length_cons, pow_succ', mod_mul, hdiv, hmod]
  · rw [length_cons, pow_succ', ← Nat.div_div_eq_div_mul, hdiv]
    exact hhigh

section

variable {i : Nat} (h : s.Spells bits n) (hi : i ≤ bits.length)

include h hi

theorem spells_take : s.Spells (bits.take i) (n % 2 ^ i) := by
 rw [← take_append_drop i bits] at h
 have hlow := (spells_split h).1
 rwa [length_take_of_le hi] at hlow

theorem spells_drop : s.Spells (bits.drop i) (n / 2 ^ i) := by
 rw [← take_append_drop i bits] at h
 have hhigh := (spells_split h).2
 rwa [length_take_of_le hi] at hhigh

end

theorem means_getElem (h : s.Spells bits n) {i : Nat} (hi : bits[i]? = some l) : s.Means l (n.testBit i) := by
 induction bits generalizing n i with
 | nil => nomatch hi
 | cons l' bits ih =>
  obtain ⟨v, k, hl, hbits, rfl⟩ := h
  cases i with
  | zero =>
   cases hi
   cases v <;> simpa using hl
  | succ i =>
   have hdiv : (v.toNat + 2 * k) / 2 = k := by have hv := v.toNat_lt; omega
   grind

theorem spells_replicate (hl : s.Means l false) (w : Nat) : s.Spells (replicate w l) 0 := by
 induction w with
 | zero => rfl
 | succ w ih => exact ⟨false, 0, hl, ih, rfl⟩

theorem spells_invert (h : s.Spells bits n) : s.Spells (Blaster.invert bits) (2 ^ bits.length - 1 - n) := by
 induction bits generalizing n with
 | nil => obtain rfl : n = 0 := h; rfl
 | cons l bits ih =>
  obtain ⟨v, k, hl, hbits, rfl⟩ := h
  have hlt := hbits.lt
  refine ⟨!v, _, hl.negate, ih hbits, ?_⟩
  rw [length_cons, pow_succ]
  cases v
  · grind
  grind

/-- The literals of a number given bit by bit. -/
theorem spells_range {f : Nat → Lit} {value : Nat} (hf : ∀ i, s.Means (f i) (value.testBit i)) (w : Nat) :
  s.Spells ((List.range w).map f) (value % 2 ^ w) := by
 induction w generalizing f value with
 | zero => exact mod_one value
 | succ w ih =>
  rw [range_succ_eq_map, map_cons, map_map]
  have htail : s.Spells ((List.range w).map (f ∘ Nat.succ)) (value / 2 % 2 ^ w) := by
   apply ih
   grind
  refine ⟨value.testBit 0, _, hf 0, htail, ?_⟩
  · rw [pow_succ', mod_mul, testBit_zero]
    rcases mod_two_eq_zero_or_one value with h | h <;> rw [h] <;> rfl

/-- The blaster of an empty graph, with its only variable true. -/
def start : Valued where
 blaster := .new
 value _ := true
 models := by decide
 bounded := by decide
 one_mem := by decide

def constants (s : Valued) (value w : Nat) : List Lit :=
 (List.range w).map fun i => if value.testBit i then s.blaster.one else s.blaster.one.negate

theorem spells_constants (s : Valued) (value w : Nat) : s.Spells (s.constants value w) (value % 2 ^ w) := by
 refine spells_range (fun i => ?_) w
 cases value.testBit i
 · exact s.means_zero
 · exact s.means_one

/-! ## Circuits -/

theorem yields_muxBits (hc : s.Means c v) (ha : s.Spells a n) (hb : s.Spells b k) (hlen : a.length = b.length) :
  s.Yields (Blaster.muxBits c a b) fun t r => r.length = a.length ∧ t.Spells r (if v then n else k) := by
 induction a generalizing b n k s with
 | nil =>
  obtain rfl := length_eq_zero_iff.1 hlen.symm
  obtain rfl : n = 0 := ha
  obtain rfl : k = 0 := hb
  exact yields_pure ⟨rfl, (ite_self 0 : (if v then 0 else 0) = 0)⟩
 | cons x a ih =>
  cases b with
  | nil => nomatch hlen
  | cons y b =>
   obtain ⟨p, n, hx, ha, rfl⟩ := ha
   obtain ⟨q, k, hy, hb, rfl⟩ := hb
   apply yields_bind (yields_mux hc hx hy)
   intro t l hext hl
   apply yields_bind (ih (hc.mono hext) (ha.mono hext) (hb.mono hext) (Nat.succ.inj hlen))
   rintro u rest hext' ⟨hlength, hrest⟩
   refine yields_pure ⟨congrArg Nat.succ hlength, _, _, hl.mono hext', hrest, ?_⟩
   cases v <;> rfl

theorem yields_eqGo {acc : Lit} (hacc : s.Means acc v) (ha : s.Spells a n) (hb : s.Spells b k) (hlen : a.length = b.length) :
  s.Yields (Blaster.eqBits.go a b acc) fun t r => t.Means r (v && n = k) := by
 induction a generalizing b n k s acc v with
 | nil =>
  obtain rfl := length_eq_zero_iff.1 hlen.symm
  obtain rfl : n = 0 := ha
  obtain rfl : k = 0 := hb
  exact yields_pure (by simpa using hacc)
 | cons x a ih =>
  cases b with
  | nil => nomatch hlen
  | cons y b =>
   obtain ⟨p, n, hx, ha, rfl⟩ := ha
   obtain ⟨q, k, hy, hb, rfl⟩ := hb
   apply yields_bind (yields_xor hx hy)
   intro t l hext hl
   apply yields_bind (yields_and (hacc.mono hext) hl.negate)
   intro u l' hext' hl'
   have hboth := hext.trans hext'
   apply (ih hl' (ha.mono hboth) (hb.mono hboth) (Nat.succ.inj hlen)).mono
   intro w r _ hr
   have heq : (v && n = k && !(p ^^ q)) = (v && decide (p.toNat + 2 * n = q.toNat + 2 * k)) := by
    have hodd : p.toNat + 2 * n = q.toNat + 2 * k ↔ n = k ∧ p = q := by
     cases p <;> cases q <;> simp <;> omega
    grind
   grind

theorem yields_eqBits (ha : s.Spells a n) (hb : s.Spells b k) (hlen : a.length = b.length) :
  s.Yields (Blaster.eqBits a b) fun t r => t.Means r (n = k) := by
 apply yields_bind yields_one
 intro t one hext hone
 have hgo := yields_eqGo hone (ha.mono hext) (hb.mono hext) hlen
 simpa only [Bool.true_and] using hgo

theorem full_adder (p q v : Bool) :
  (p ^^ q ^^ v).toNat + 2 * (p && q || v && (p ^^ q)).toNat = p.toNat + q.toNat + v.toNat := by
 cases p <;> cases q <;> cases v <;> rfl

section

variable (ha : s.Spells a n) (hb : s.Spells b k) (hlen : a.length = b.length)

include ha hb hlen

theorem yields_adder (hc : s.Means c v) : s.Yields (Blaster.adder a b c) fun t r => r.1.length = a.length ∧
   t.Spells r.1 ((n + k + v.toNat) % 2 ^ a.length) ∧ t.Means r.2 (2 ^ a.length ≤ n + k + v.toNat) := by
 induction a generalizing b n k s c v with
 | nil =>
  obtain rfl := length_eq_zero_iff.1 hlen.symm
  obtain rfl : n = 0 := ha
  obtain rfl : k = 0 := hb
  refine yields_pure ⟨rfl, mod_one _, ?_⟩
  cases v <;> exact hc
 | cons x a ih =>
  cases b with
  | nil => nomatch hlen
  | cons y b =>
   obtain ⟨p, n, hx, ha, rfl⟩ := ha
   obtain ⟨q, k, hy, hb, rfl⟩ := hb
   apply yields_bind (yields_xor hx hy)
   intro s1 axb h1 haxb
   apply yields_bind (yields_xor haxb (hc.mono h1))
   intro s2 sum h2 hsum
   apply yields_bind (yields_and (hx.mono (h1.trans h2)) (hy.mono (h1.trans h2)))
   intro s3 ab h3 hab
   apply yields_bind (yields_and (hc.mono (h1.trans (h2.trans h3))) (haxb.mono (h2.trans h3)))
   intro s4 cx h4 hcx
   apply yields_bind (yields_or (hab.mono h4) hcx)
   intro s5 carry h5 hcarry
   have h₃5 := h3.trans (h4.trans h5)
   have h₁5 := h1.trans (h2.trans h₃5)
   apply yields_bind (ih (ha.mono h₁5) (hb.mono h₁5) (Nat.succ.inj hlen) hcarry)
   rintro s₆ ⟨rest, out⟩ h₆ ⟨hlength, hrest, hout⟩
   have hfull := full_adder p q v
   have hlow := (p ^^ q ^^ v).toNat_lt
   generalize (p && q || v && (p ^^ q)).toNat = high at hfull hrest hout
   have hsplit : p.toNat + 2 * n + (q.toNat + 2 * k) + v.toNat = (p ^^ q ^^ v).toNat + 2 * (n + k + high) := by omega
   refine yields_pure ⟨congrArg Nat.succ hlength, ⟨_, _, hsum.mono (h₃5.trans h₆), hrest, ?_⟩, ?_⟩
   · rw [hsplit, length_cons, pow_succ', mod_mul, add_mul_mod_self_left, mod_eq_of_lt hlow,
      add_mul_div_left _ _ (by omega), div_eq_of_lt hlow, zero_add]
   · rw [hsplit, length_cons, pow_succ']
     convert hout using 2
     omega

theorem yields_subCarry : s.Yields (Blaster.subCarry a b) fun t r => r.1.length = a.length ∧
   t.Spells r.1 ((n + 2 ^ a.length - k) % 2 ^ a.length) ∧ t.Means r.2 (k ≤ n) := by
 apply yields_bind yields_one
 intro t one hext hone
 have hk := hb.lt
 rw [← hlen] at hk
 have hsum : n + (2 ^ b.length - 1 - k) + true.toNat = n + 2 ^ a.length - k := by
  grind
 have hinvert : a.length = (Blaster.invert b).length := by rw [Blaster.invert, length_map, hlen]
 apply (yields_adder (ha.mono hext) (spells_invert (hb.mono hext)) hinvert hone).mono
 rintro u r - ⟨hlength, hbits, hcarry⟩
 rw [hsum] at hbits hcarry
 refine ⟨hlength, hbits, ?_⟩
 convert hcarry using 2
 omega

theorem yields_subtract :
  s.Yields (Blaster.subtract a b) fun t r => r.length = a.length ∧ t.Spells r ((n + 2 ^ a.length - k) % 2 ^ a.length) :=
 yields_bind (yields_subCarry ha hb hlen) fun _ _ _ h => yields_pure ⟨h.1, h.2.1⟩

theorem yields_uge : s.Yields (Blaster.uge a b) fun t r => t.Means r (k ≤ n) :=
 yields_bind (yields_subCarry ha hb hlen) fun _ _ _ h => yields_pure h.2.2

end

theorem yields_negate (ha : s.Spells a n) :
  s.Yields (Blaster.negate a) fun t r => r.length = a.length ∧ t.Spells r ((2 ^ a.length - n) % 2 ^ a.length) := by
 apply yields_bind yields_zero
 intro t zero hext hzero
 apply yields_bind yields_one
 intro u one hext' hone
 have hn := ha.lt
 have hlength : (Blaster.invert a).length = a.length := length_map _
 have hinvert := spells_invert (ha.mono (hext.trans hext'))
 have hzeros := spells_replicate (hzero.mono hext') a.length
 apply yields_bind (yields_adder hinvert hzeros (by rw [hlength, length_replicate]) hone)
 rintro w r - ⟨hr, hbits, -⟩
 have hsum : 2 ^ a.length - 1 - n + 0 + true.toNat = 2 ^ a.length - n := by
  rw [Bool.toNat_true]
  omega
 rw [hsum, hlength] at hbits
 exact yields_pure ⟨hr.trans hlength, hbits⟩

theorem yields_orGo {acc : Lit} (hacc : s.Means acc v) (h : s.Spells bits n) :
  s.Yields (Blaster.orReduce.go bits acc) fun t r => t.Means r (v || n ≠ 0) := by
 induction bits generalizing n s acc v with
 | nil =>
  obtain rfl : n = 0 := h
  exact yields_pure (by simpa using hacc)
 | cons l bits ih =>
  obtain ⟨p, n, hl, hbits, rfl⟩ := h
  apply yields_bind (yields_or hacc hl)
  intro t r hext hr
  apply (ih hr (hbits.mono hext)).mono
  intro u r _ hr
  convert hr using 1
  cases p <;> simp

theorem yields_orReduce (h : s.Spells bits n) : s.Yields (Blaster.orReduce bits) fun t r => t.Means r (n ≠ 0) := by
 apply yields_bind yields_zero
 intro t zero hext hzero
 have hgo := yields_orGo hzero (h.mono hext)
 simpa only [Bool.false_or] using hgo

theorem yields_nor (h : s.Spells bits n) : s.Yields (Blaster.nor bits) fun t r => t.Means r (n = 0) := by
 apply yields_bind (yields_orReduce h)
 intro t r _ hr
 apply yields_pure
 simpa using hr.negate

theorem yields_constBits (value w : Nat) :
  s.Yields (Blaster.constBits value w) fun t r => r.length = w ∧ t.Spells r (value % 2 ^ w) := by
 apply yields_bind yields_one
 intro t one hext hone
 apply yields_bind yields_zero
 intro u zero hext' hzero
 refine yields_pure ⟨by rw [length_map, length_range], spells_range (fun i => ?_) w⟩
 cases value.testBit i
 · exact hzero
 · exact hone.mono hext'

end Valued

end Tir.Bitblast
