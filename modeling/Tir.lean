import Tir.RegAlloc.Copies
import Tir.RegAlloc.Allocate
import Tir.Sat.Correct
import Tir.RegAlloc.SplitOutcome
import Tir.RegAlloc.BeladyEdges
import Tir.Restructure.BlockOrder
import Tir.Relational.ExtractTrees
import Tir.Egraph.Soundness
import Tir.Relational.Decompose
import Tir.Sem.LegalizeSound
import Tir.Backend.ElfRoundTrip
import Tir.Affine.ScheduleLegal
import Tir.Adt.FloatSound
import Tir.Backend.WriterObject
import Tir.Relational.UnionFindExact
import Tir.Passes.InstcombineSound
import Tir.Backend.AbiAgree
import Tir.Simcore.ServiceAtomic
import Tir.Sem.SelectionAxioms
import Tir.RegAlloc.LiveExact
import Tir.Simcore.GuestMemory
import Tir.Lang.PureAgrees
import Tir.Bitblast.IntToFloatRounds
import Tir.RegAlloc.FramePlan
import Tir.Lang.Lanes
import Tir.Adt.DagTraversal
import Tir.Adt.WordText
import Tir.Bitblast.FloatCompare
import Tir.Passes.StripMine
import Tir.Backend.ElfTotal
import Tir.Sem.TermStore
import Tir.Relational.LatticeColumn
import Tir.Backend.ImmediateClass
import Tir.Fcc.Macros
