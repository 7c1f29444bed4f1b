import Csolver.Absint.DomainLaws
import Csolver.Absint.EdgeBinding
import Csolver.Absint.PointsToSound
import Csolver.Asm.Decode
import Csolver.Elf.LzxChunk
import Csolver.Elf.Xpress
import Csolver.Interleave.Atomicity
import Csolver.Interleave.Coherence
import Csolver.Interleave.CrossEntry
import Csolver.Interleave.Aba
import Csolver.Interleave.RobustSim
import Csolver.Interleave.WeakmemCheck
import Csolver.Ir.LinkSound
import Csolver.Llvm.AsmSound
import Csolver.Llvm.GepExact
import Csolver.Llvm.Mmio
import Csolver.Llvm.PhiRuns
import Csolver.Llvm.ScalarExact
import Csolver.Llvm.TypeParser
import Csolver.Solver.Bitprecise
import Csolver.Solver.Formula
import Csolver.Solver.LinearExact
import Csolver.Solver.SatWatched
import Csolver.Symbolic.Counting
import Csolver.Symbolic.Effects
import Csolver.Symbolic.ExitBoundRuns
import Csolver.Symbolic.FieldPtr
import Csolver.Symbolic.JoinEnv
import Csolver.Symbolic.JoinHeap
import Csolver.Symbolic.JoinRegions
import Csolver.Symbolic.Overflow
import Csolver.Symbolic.Overlap
import Csolver.Symbolic.PtrCmp
import Csolver.Symbolic.Queries
import Csolver.Symbolic.Refcount
import Csolver.Symbolic.RetSummary
import Csolver.Symbolic.RunMerged
import Csolver.Symbolic.SizeGoal
import Csolver.Verifier.DataRace
import Csolver.Verifier.Discharge
import Csolver.Verifier.FieldsSound
import Csolver.Verifier.LockOrderRuns
import Csolver.Verifier.Mem2regFresh
import Csolver.Verifier.Precond
import Csolver.Verifier.WholeProgram
import Csolver.X86.TypedLocal
