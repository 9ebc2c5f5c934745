import Mathlib.Data.BitVec

/-!
# Bytes of a format

Little-endian numbers, readers that take bytes off the front, and the chunks that stand at positions of a
byte list. A format is read back by chaining `Reads` along the writer (`Reads.bind`) and by finding each
chunk where the writer left it (`StandsAt`).
-/

open List Option Nat

namespace Tir.Bytes

abbrev Byte := BitVec 8

/-! ## Numbers -/

/-- The low `n` bytes of a number, the least significant first. -/
def toLe : Nat → Nat → List Byte
 | 0, _ => []
 | n + 1, v => BitVec.ofNat 8 v :: toLe n (v / 256)

def ofLe : List Byte → Nat
 | [] => 0
 | byte :: bytes => byte.toNat + 256 * ofLe bytes

@[simp] theorem length_toLe (n v : Nat) : (toLe n v).length = n := by
  induction n generalizing v with
  | zero => rfl
  | succ n ih => rw [toLe, length_cons, ih]

theorem ofLe_toLe (n v : Nat) : ofLe (toLe n v) = v % 256 ^ n := by
 induction n generalizing v with
 | zero => rw [toLe, ofLe, pow_zero, mod_one]
 | succ n ih =>
  have hsplit : v % (256 * 256 ^ n) = v % 256 + 256 * (v / 256 % 256 ^ n) := mod_mul
  have hpow : 256 ^ (n + 1) = 256 * 256 ^ n := pow_succ'
  rw [toLe, ofLe, ih, BitVec.toNat_ofNat, hpow, hsplit]

/-! ## Readers -/

/-- A reader takes the bytes it needs off the front of those left. -/
abbrev Reader (ε α : Type) := StateT (List Byte) (Except ε) α

section Reads

variable {ε α β : Type}

/-- The next `n` bytes, or the error `e` where fewer are left. -/
def take (n : Nat) (e : ε) : Reader ε (List Byte) := fun bytes =>
 if n ≤ bytes.length then .ok (bytes.take n, bytes.drop n) else .error e

/-- A number of `n` bytes. -/
def number (w n : Nat) (e : ε) : Reader ε (BitVec w) := do
 let bytes ← take n e
 pure (BitVec.ofNat w (ofLe bytes))

/-- A reader gives a value from exactly these bytes, whatever follows them. -/
def Reads (reader : Reader ε α) (bytes : List Byte) (value : α) : Prop :=
 ∀ rest, reader (bytes ++ rest) = .ok (value, rest)

theorem reads_pure (value : α) : Reads (pure value : Reader ε α) [] value :=
 fun _ => rfl

theorem Reads.bind {reader : Reader ε α} {next : α → Reader ε β} {bytes bytes' : List Byte} {value : α} {value' : β}
  (h : Reads reader bytes value) (h' : Reads (next value) bytes' value') :
  Reads (reader >>= next) (bytes ++ bytes') value' := by
 intro rest
 have hbind : (reader >>= next) (bytes ++ bytes' ++ rest) =
   reader (bytes ++ bytes' ++ rest) >>= fun pair => next pair.1 pair.2 := rfl
 rw [hbind, append_assoc, h]
 exact h' rest

section

variable {reader : Reader ε α} {bytes : List Byte} {value : α} (h : Reads reader bytes value)

include h

theorem Reads.map (f : α → β) :
  Reads (f <$> reader) bytes (f value) := by
 have hpure : Reads (reader >>= fun a => pure (f a)) (bytes ++ []) (f value) := h.bind (reads_pure (f value))
 rwa [append_nil, ← map_eq_pure_bind] at hpure

theorem Reads.cons {next : α → Reader ε β} {chunks : List (List Byte)}
  {value' : β} (h' : Reads (next value) chunks.flatten value') :
  Reads (reader >>= next) (bytes :: chunks).flatten value' :=
 h.bind h'

end

theorem reads_take {n : Nat} {e : ε} {bytes : List Byte} (h : bytes.length = n) : Reads (take n e) bytes bytes := by
 intro rest
 rw [take, if_pos (by rw [length_append]; omega), take_left' h, drop_left' h]

theorem reads_number {w n : Nat} {e : ε} (value : BitVec w) (h : 2 ^ w ≤ 256 ^ n) :
  Reads (number w n e) (toLe n value.toNat) value := by
 have hlt : value.toNat < 256 ^ n := value.isLt.trans_le h
 have hread := (reads_take (e := e) (length_toLe n value.toNat)).map fun bytes => BitVec.ofNat w (ofLe bytes)
 rw [ofLe_toLe, mod_eq_of_lt hlt, BitVec.ofNat_toNat, BitVec.setWidth_eq] at hread
 rwa [number, ← map_eq_pure_bind]

end Reads

/-! ## Positions -/

section StandsAt

variable {α β : Type} {bytes chunk : List β} {at' : Nat}

/-- A chunk stands at a position of a list. -/
def StandsAt (bytes : List β) (at' : Nat) (chunk : List β) : Prop :=
 ∃ before after, bytes = before ++ (chunk ++ after) ∧ before.length = at'

theorem StandsAt.append (h : StandsAt bytes at' chunk) (more : List β) : StandsAt (bytes ++ more) at' chunk := by
 obtain ⟨before, after, rfl, hlen⟩ := h
 exact ⟨before, after ++ more, by simp, hlen⟩

theorem StandsAt.shift (h : StandsAt bytes at' chunk) (front : List β) :
  StandsAt (front ++ bytes) (front.length + at') chunk := by
 obtain ⟨before, after, rfl, rfl⟩ := h
 exact ⟨front ++ before, after, by simp, length_append⟩

theorem StandsAt.left {chunk' : List β} (h : StandsAt bytes at' (chunk ++ chunk')) : StandsAt bytes at' chunk := by
 obtain ⟨before, after, rfl, hlen⟩ := h
 exact ⟨before, chunk' ++ after, by rw [append_assoc], hlen⟩

theorem standsAt_zero (bytes more : List β) : StandsAt (bytes ++ more) 0 bytes :=
 ⟨[], more, rfl, rfl⟩

/-- What was appended stands at the end of what was there. -/
theorem standsAt_length (bytes chunk : List β) : StandsAt (bytes ++ chunk) bytes.length chunk :=
 ⟨bytes, [], by rw [append_nil], rfl⟩

section

variable (h : StandsAt bytes at' chunk)

include h

theorem StandsAt.drop : ∃ rest, bytes.drop at' = chunk ++ rest := by
 obtain ⟨before, after, rfl, hlen⟩ := h
 exact ⟨after, drop_left' hlen⟩

theorem StandsAt.slice : (bytes.drop at').take chunk.length = chunk := by
 obtain ⟨rest, hdrop⟩ := h.drop
 rw [hdrop, take_left]

theorem StandsAt.le : at' + chunk.length ≤ bytes.length := by
 obtain ⟨before, after, rfl, hlen⟩ := h
 simp only [length_append]
 omega

end

/-- The entries of a table stand at the multiples of their length. -/
theorem standsAt_flatMap {entries : List α} {f : α → List β} {n k : Nat} {entry : α}
  (hlen : ∀ entry ∈ entries, (f entry).length = n) (hk : entries[k]? = some entry) :
  StandsAt (entries.flatMap f) (k * n) (f entry) := by
 induction entries generalizing k with
 | nil => nomatch hk
 | cons first entries ih =>
  rw [flatMap_cons]
  cases k with
  | zero =>
   cases hk
   rw [zero_mul]
   exact standsAt_zero _ _
  | succ k =>
   have hrest := (ih (fun entry hent => hlen entry (.tail _ hent)) hk).shift (f first)
   rwa [hlen first (.head _), add_comm, ← Nat.succ_mul] at hrest

theorem length_flatMap {entries : List α} {f : α → List β} {n : Nat} (hlen : ∀ entry ∈ entries, (f entry).length = n) :
  (entries.flatMap f).length = entries.length * n := by
 induction entries with
 | nil => rw [flatMap_nil, length_nil, length_nil, zero_mul]
 | cons first entries ih =>
  rw [flatMap_cons, length_append, hlen first mem_cons_self,
   ih fun entry hent => hlen entry (.tail _ hent), length_cons, Nat.succ_mul, add_comm]

end StandsAt

/-- A reader of what stands at a position. -/
theorem Reads.standsAt {ε α : Type} {reader : Reader ε α} {bytes chunk : List Byte} {at' : Nat} {value : α}
  (h : Reads reader chunk value) (hat : StandsAt bytes at' chunk) : reader.run' (bytes.drop at') = .ok value := by
 obtain ⟨rest, hdrop⟩ := hat.drop
 have hrun : reader.run' (bytes.drop at') = (reader (bytes.drop at') >>= fun pair => pure pair.1) := rfl
 rw [hrun, hdrop, h rest]
 rfl

/-! ## Checked lists -/

section MapM

variable {ε α β : Type} {f : α → Except ε β} {g : α → β}

theorem ok_bind (a : α) (next : α → Except ε β) : (Except.ok a >>= next) = next a :=
 rfl

theorem mapM_map_eq_ok {γ : Type} {h : γ → α} {k : γ → β} {l : List γ} (hall : ∀ c ∈ l, f (h c) = .ok (k c)) :
  (l.map h).mapM f = .ok (l.map k) := by
 induction l with
 | nil => rfl
 | cons c l ih =>
  rw [map_cons, mapM_cons, hall c mem_cons_self, ih fun b hb => hall b (mem_cons_of_mem _ hb)]
  rfl

theorem mapM_flatMap_eq_ok {γ : Type} {f : α → Except ε (List β)} {h : γ → List α} {k : γ → List β} {l : List γ}
  (hall : ∀ c ∈ l, ∃ parts, (h c).mapM f = .ok parts ∧ parts.flatten = k c) :
  ∃ parts, (l.flatMap h).mapM f = .ok parts ∧ parts.flatten = l.flatMap k := by
 induction l with
 | nil => exact ⟨[], rfl, rfl⟩
 | cons c l ih =>
  obtain ⟨parts, hparts, hflat⟩ := hall c (.head _)
  obtain ⟨rest, hrest, hflat'⟩ := ih fun b hb => hall b (.tail _ hb)
  refine ⟨parts ++ rest, ?_, ?_⟩
  · rw [flatMap_cons, mapM_append, hparts, hrest]
    rfl
  · rw [flatten_append, hflat, hflat', flatMap_cons]

theorem mapM_range_eq_ok {γ : Type} {f : Nat → Except ε β} {k : γ → β} {l : List γ}
  (hall : ∀ (i : Nat) (c : γ), l[i]? = some c → f i = .ok (k c)) : (List.range l.length).mapM f = .ok (l.map k) := by
 induction l using List.reverseRecOn with
 | nil => rfl
 | append_singleton l c ih =>
  have hinit := ih fun i b hb => hall i b (by rw [getElem?_append_left (List.getElem?_eq_some_iff.1 hb).1, hb])
  have hlast := hall l.length c (by rw [getElem?_append_right le_rfl, Nat.sub_self]; rfl)
  rw [length_append, length_singleton, range_succ, mapM_append, hinit]
  simp only [mapM_cons, mapM_nil, hlast, map_append]
  rfl

/-- What a loop that may refuse gives at each position. -/
theorem mapM_some {f : α → Option β} {l : List α} {results : List β} (h : l.mapM f = some results) :
  results.length = l.length ∧ ∀ (i : Nat) (a : α), l[i]? = some a → ∃ b, results[i]? = some b ∧ f a = some b := by
 induction l generalizing results with
 | nil =>
  cases h
  exact ⟨rfl, nofun⟩
 | cons first l ih =>
  rw [mapM_cons] at h
  obtain ⟨b, hb, hrest⟩ := bind_eq_some_iff.1 h
  obtain ⟨rest, hl, heq⟩ := bind_eq_some_iff.1 hrest
  cases heq
  obtain ⟨hlen, hall⟩ := ih hl
  refine ⟨congrArg (· + 1) hlen, fun i a hi => ?_⟩
  cases i with
  | zero =>
   cases hi
   exact ⟨b, rfl, hb⟩
  | succ i => exact hall i a hi

end MapM

end Tir.Bytes
