import Mismatch.Prelude.Impls
import Mismatch.Trait.Deref

/-!
# Resolvers

A table of traits together with the answers remembered from earlier queries. A new implementation
makes every remembered answer void; a new trait or other known items leave them as they are.
-/

namespace Mismatch

structure Resolver where
  table : TraitTable
  cache : Cache

namespace Resolver

def empty (known : KnownItems) : Resolver := ⟨.empty known, []⟩

def addTrait (r : Resolver) (d : TraitDef) : Resolver := { r with table := r.table.addTrait d }

def addImpl (r : Resolver) (i : Impl) : Resolver := ⟨r.table.addImpl i, []⟩

def setKnown (r : Resolver) (known : KnownItems) : Resolver :=
  { r with table := r.table.setKnown known }

def clearCache (r : Resolver) : Resolver := { r with cache := [] }

/-- The resolver with the standard traits and implementations added. -/
def addPrelude (r : Resolver) : Resolver := ⟨Prelude.extend r.table, []⟩

/-- What is reported when the standard traits and implementations have been added. -/
def preludeReport : Log.Event :=
  ⟨.debug, "traits",
    Text.join ["std prelude registered ", Text.ofNat Prelude.impls.length, " impls"]⟩

/-- Answers a query: the answer, the resolver that remembers what was found out, and the reports in
the order in which they were made. There is no answer when the search grows beyond its bound. -/
def ask {α : Type} (r : Resolver) (bounds : Bounds) (q : Solver → Query α) :
    Option (α × Resolver × List Log.Event) := do
  let (a, memo) ← q ⟨r.table, bounds⟩ ⟨r.cache, []⟩
  return (a, ⟨r.table, memo.cache⟩, memo.reports.reverse)

end Resolver
end Mismatch
