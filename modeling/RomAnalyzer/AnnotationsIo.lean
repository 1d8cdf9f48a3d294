import RomAnalyzer.Types

/-!
# Annotation stores

The in-memory form of a reference's annotation file. Reading and writing the
file is outside this module; what the pipeline takes from a store is the flat
symbol list of `loadReferenceSymbols`.
-/
namespace RomAnalyzer

structure AnnotationParam where
  name : String
  storage : String
  type : String
  deriving DecidableEq, Repr

structure AnnotationSymbol where
  name : String
  address : Nat
  category : SymbolCategory
  dataType : Option String := none
  confidence : ConfidenceTier := .high
  source : String := ""
  verifiedBy : Option String := none
  session : String := ""
  timestamp : String := ""
  deriving DecidableEq, Repr

structure AnnotationFunction where
  name : String
  entryPoint : Nat
  confidence : ConfidenceTier := .high
  source : String := ""
  verifiedBy : Option String := none
  session : String := ""
  timestamp : String := ""
  returnType : Option String := none
  params : List AnnotationParam := []
  deriving DecidableEq, Repr

structure StructMember where
  name : String
  offset : Int
  type : String
  deriving DecidableEq, Repr

structure StructDefinition where
  name : String
  size : Int
  members : List StructMember := []
  deriving DecidableEq, Repr

structure AnnotationComment where
  address : Nat
  type : String
  text : String
  verifiedBy : Option String := none
  session : String := ""
  timestamp : String := ""
  deriving DecidableEq, Repr

structure AnnotationStore where
  schemaVersion : Int
  romId : String
  romSha256 : String
  symbols : List AnnotationSymbol := []
  functions : List AnnotationFunction := []
  structDefinitions : List StructDefinition := []
  comments : List AnnotationComment := []
  deriving DecidableEq, Repr

namespace AnnotationsIo

/-- Symbols first, then functions, each in the order of the store. -/
def loadReferenceSymbols (store : AnnotationStore) : List ReferenceSymbol :=
  store.symbols.map (fun s => ⟨s.name, s.address, s.category⟩) ++
    store.functions.map fun f => ⟨f.name, f.entryPoint, .function⟩

end AnnotationsIo

end RomAnalyzer
