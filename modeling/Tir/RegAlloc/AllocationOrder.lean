import Tir.RegAlloc.Registers

/-!
# The registers an ABI hands out

Model of `allocation_order` (`core/src/backend/regalloc.rs`) and of `scratch`
(`core/src/backend/regalloc/copies.rs`): the registers of one class the allocator may assign, in
the order caller-saved before callee-saved, and those a parallel copy may be broken through.

Every register of either list belongs to the class asked for, is encodable by it, and overlaps
neither the stack pointer, nor the return address, nor a reserved register
(`allocationOrder_spec`).
-/

open List Bool

namespace Tir.RegAlloc

/-- The part of `AbiInfo` register assignment reads. -/
structure AbiInfo where
 callerSaved : List PhysReg
 calleeSaved : List PhysReg
 sp : PhysReg
 ra : Option PhysReg
 reserved : List PhysReg
 /-- The classes of the first register of the ABI's integer argument sequence, if any: what
 `default_integer_class` answers. -/
 defaultIntegerClass : Option RegClassId

namespace AbiInfo

/-- The registers with a fixed role: stack pointer, return address, reserved registers. -/
def roles (abi : AbiInfo) : List PhysReg := abi.sp :: (abi.ra.toList ++ abi.reserved)

end AbiInfo

/-- A listed register of the class's file that the class encodes, at a group boundary. -/
def admits (c : RegClassId) (register : PhysReg) : Bool :=
 register.1.file == c.file && c.contains register.2 && register.2 % c.width == 0

/-- The candidate overlaps a register with a fixed role. -/
def isRole (abi : AbiInfo) (candidate : PhysReg) : Bool :=
 abi.roles.any fun role => candidate.overlaps role

/-- The registers of `c` the allocator hands out, each once. -/
def allocationOrder (abi : AbiInfo) (c : RegClassId) : List PhysReg :=
 (abi.callerSaved ++ abi.calleeSaved).foldl
  (fun result register =>
   if admits c register && !isRole abi (c, register.2) && !result.contains (c, register.2)
   then result ++ [(c, register.2)] else result)
  []

/-- What `allocationOrder` promises of one register. -/
structure Allocatable (abi : AbiInfo) (c : RegClassId) (r : PhysReg) : Prop where
 ofClass : r.1 = c
 encodable : c.contains r.2 = true
 noRole : ∀ role ∈ abi.roles, r.overlaps role = false

private theorem foldl_allocatable (abi : AbiInfo) (c : RegClassId) (listed : List PhysReg) :
  ∀ acc : List PhysReg, (∀ r ∈ acc, Allocatable abi c r) → ∀ r ∈ listed.foldl (fun result register =>
     if admits c register && !isRole abi (c, register.2) && !result.contains (c, register.2)
     then result ++ [(c, register.2)] else result) acc,
    Allocatable abi c r := by
 induction listed with
 | nil => exact fun acc hacc => hacc
 | cons register rest ih =>
  intro acc hacc
  rw [foldl_cons]
  apply ih
  split
  · rename_i hcond
    simp only [and_eq_true, not_eq_true', admits, beq_iff_eq] at hcond
    obtain ⟨⟨⟨⟨-, hcont⟩, -⟩, hrole⟩, -⟩ := hcond
    intro r hr
    rcases mem_append.1 hr with hr | hr
    · exact hacc r hr
    · obtain rfl := mem_singleton.1 hr
      refine ⟨rfl, hcont, fun role hmem => ?_⟩
      simp only [isRole, any_eq_false] at hrole
      exact eq_false_iff.2 (hrole role hmem)
  · exact hacc

theorem allocationOrder_spec (abi : AbiInfo) (c : RegClassId) : ∀ r ∈ allocationOrder abi c, Allocatable abi c r :=
 foldl_allocatable abi c _ [] nofun

/-- The register is callee-saved and no assigned value took the saved register. -/
def unsaved (abi : AbiInfo) (taken : List PhysReg) (register : PhysReg) : Bool :=
 abi.calleeSaved.any fun saved =>
  saved.overlaps register && !taken.any fun t => t.overlaps saved

/-- The registers a cycle of `c` may be broken through; `taken` lists the registers the
assignment uses. -/
def scratch (abi : AbiInfo) (taken : List PhysReg) (c : RegClassId) : List PhysReg :=
 (allocationOrder abi c).filter fun register => !unsaved abi taken register

theorem scratch_ofClass (abi : AbiInfo) (taken : List PhysReg) (c : RegClassId) :
  ∀ r ∈ scratch abi taken c, r.1 = c := by
 intro r hr
 exact (allocationOrder_spec abi c r (mem_of_mem_filter hr)).ofClass

end Tir.RegAlloc
