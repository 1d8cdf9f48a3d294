import RomAnalyzer.Cleanup

/-!
# Building a reference store

The lists that the source parsers deliver are reduced to one entry for each place
and cleaned up. The parsers are outside this module; a source that was not given
delivers nothing.
-/
namespace RomAnalyzer.Scripts

open Lib

def sourceRank : Dict String Nat := Dict.ofList [
  ("colt_flash", 3), ("colt_map", 3), ("colt_s", 2), ("description_ld", 1)]

/-- A higher source rank is better, then a type. -/
def symbolRank (s : AnnotationSymbol) : ℕ ×ₗ Bool :=
  toLex (sourceRank.getD s.source 0, s.dataType.isSome)

/-- A higher source rank is better, then parameters. -/
def functionRank (f : AnnotationFunction) : ℕ ×ₗ Bool :=
  toLex (sourceRank.getD f.source 0, !f.params.isEmpty)

/-- One symbol for each address and category; a newcomer has to be better. -/
def dedupSymbols (symbols : List AnnotationSymbol) : List AnnotationSymbol :=
  (keepBest (fun s => (s.address, s.category)) symbolRank symbols).values

/-- One function for each entry point. -/
def dedupFunctions (functions : List AnnotationFunction) : List AnnotationFunction :=
  (keepBest AnnotationFunction.entryPoint functionRank functions).values

/-- What the parsers return for the sources that were given. -/
structure ParsedSources where
  flash : Option (List AnnotationSymbol × List AnnotationFunction)
  map : Option (List AnnotationSymbol)
  descriptionLd : Option (List AnnotationSymbol)
  asm : Option (List AnnotationSymbol × List AnnotationFunction)

def ParsedSources.symbols (src : ParsedSources) : List AnnotationSymbol :=
  (src.flash.map Prod.fst).getD [] ++ src.map.getD [] ++ src.descriptionLd.getD [] ++
    (src.asm.map Prod.fst).getD []

def ParsedSources.functions (src : ParsedSources) : List AnnotationFunction :=
  (src.flash.map Prod.snd).getD [] ++ (src.asm.map Prod.snd).getD []

def buildStore (src : ParsedSources) (romId romSha256 : String) (romBytes : Option Bytes) :
    AnnotationStore :=
  Cleanup.cleanUp {
    schemaVersion := 1
    romId := romId
    romSha256 := romSha256
    symbols := dedupSymbols src.symbols
    functions := dedupFunctions src.functions } romBytes

end RomAnalyzer.Scripts
