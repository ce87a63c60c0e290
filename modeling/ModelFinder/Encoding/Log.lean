import ModelFinder.Circuit.Basic
import ModelFinder.Data.Table
import ModelFinder.Logic.Formula

/-! The record of how the conjuncts of a formula were encoded, and the refutations that can be read
off it: conjuncts that cannot hold together within the bounds. -/
namespace ModelFinder

structure Record where
  formula : Formula
  literal : Int

abbrev Log := List Record

/-- A refutation names conjuncts that are jointly unsatisfiable. It is trivial if it was found
without a search. -/
structure Refutation where
  log : Log
  core : Table Formula Int
  trivial : Bool

namespace Refutation

/-- The chosen records by conjunct; of two records of one conjunct the later literal counts. -/
def collect (records : List Record) : Table Formula Int :=
  records.foldl (fun core r => core.insert r.formula r.literal) .empty

/-- The refutation of a formula whose circuit is false: the conjuncts that are false on their own,
or, if there are none, all that are not true. -/
def ofFolded (log : Log) : Refutation :=
  let falseOnes := log.filter (·.literal == (Value.const false).label)
  let core := if falseOnes.isEmpty then log.filter (·.literal != (Value.const true).label)
    else falseOnes
  ⟨log, collect core, true⟩

def ofFailed (log : Log) (failed : List Int) : Refutation :=
  ⟨log, collect (log.filter fun r => failed.contains r.literal), false⟩

def coreFormulas (p : Refutation) : List Formula :=
  (p.log.map (·.formula)).filter p.core.contains

end Refutation

end ModelFinder
