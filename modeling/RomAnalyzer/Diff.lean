import RomAnalyzer.Types
import RomAnalyzer.Lib.Ranked

/-!
# Matches of a version-tracking session

The correlators run outside; what the session holds is the sequence of their
associations, over all match sets.
-/
namespace RomAnalyzer.Diff

open Lib

structure VtAssociation where
  sourceAddress : Nat
  destinationAddress : Nat
  similarityScore : ℚ
  /-- the function of the source program at the source address -/
  sourceFunction : Option String
  deriving DecidableEq, Repr

/-- The name of the function at the source address, blank if there is none. -/
def funcNameAt (a : VtAssociation) : String := a.sourceFunction.getD ""

def vtMatch (a : VtAssociation) : MatchedFunction where
  refName := funcNameAt a
  refAddress := a.sourceAddress
  newAddress := a.destinationAddress
  similarity := a.similarityScore
  source := "vt_diff"

/-- Per reference address, the first association of the highest score. -/
def matchesFromVtsession (associations : List VtAssociation) : List MatchedFunction :=
  (keepBest MatchedFunction.refAddress MatchedFunction.similarity
    (associations.map vtMatch)).values

theorem mem_matchesFromVtsession {associations : List VtAssociation} {m : MatchedFunction}
    (h : m ∈ matchesFromVtsession associations) : ∃ a ∈ associations, vtMatch a = m :=
  List.mem_map.mp (mem_of_mem_values_keepBest _ _ h)

end RomAnalyzer.Diff
