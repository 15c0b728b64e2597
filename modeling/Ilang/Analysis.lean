import Ilang.Analysis.Checks
import Ilang.Analysis.Names
import Ilang.Analysis.Types
/-!
# Analysis

Binds the names of a program, gives its expressions types and checks these. Every pass runs,
whatever the ones before it report.
-/
namespace Ilang

/-- What analysis makes of a program. -/
structure Analysis where
  program : Program
  names : Report
  types : Report
  checks : Report
deriving Repr

/-- All that analysis reports, pass by pass. -/
def Analysis.report (a : Analysis) : Report := a.names ++ a.types ++ a.checks

/-- Analyses a program. -/
def Program.analyze (p : Program) : Analysis :=
  let (named, names) := p.resolveNames
  let (typed, types) := named.resolveTypes
  ⟨typed, names, types, typed.check⟩

end Ilang
