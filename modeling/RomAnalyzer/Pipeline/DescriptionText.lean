import RomAnalyzer.Pipeline.Output

/-!
# The text of description.ld

The file is made of comments, blank lines and assignments, and a text is known by the
assignments among its pieces. Those of the whole file are the symbols, the bindings of high
confidence and the PIDs, in this order, with comments and blank lines between them. A comment
holds any text: whether a name in it ends it early is not asked here.
-/
namespace RomAnalyzer.Pipeline

open Lib
open EmitLd
open Mode23Bindings (SpliceResolution)
open ObdAnalysis (OBDPidEntry)

inductive LdPiece
  | comment (text : String)
  | blank
  | assign (a : LdAssignment)
  /-- gives way to another assignment of the name -/
  | provide (a : LdAssignment)

namespace LdPiece

def text : LdPiece → String
  | comment text => "/* " ++ text ++ " */\n"
  | blank => "\n"
  | assign a => a.line
  | provide a => "PROVIDE(" ++ a.name ++ " = " ++ hex a.address ++ ");" ++ a.comment ++ "\n"

def assigned : LdPiece → Option LdAssignment
  | comment _ => none
  | blank => none
  | assign a => some a
  | provide a => some a

end LdPiece

/-- The text is made of pieces whose assignments are these. -/
def Spells (text : String) (assignments : List LdAssignment) : Prop :=
  ∃ pieces : List LdPiece, text = String.join (pieces.map LdPiece.text) ∧
    pieces.filterMap LdPiece.assigned = assignments

namespace Spells

theorem nil : Spells "" [] := ⟨[], rfl, rfl⟩

theorem piece (p : LdPiece) : Spells p.text p.assigned.toList := by
  refine ⟨[p], by simp, ?_⟩
  cases p <;> rfl

theorem append {s t : String} {as bs : List LdAssignment} (hs : Spells s as) (ht : Spells t bs) :
    Spells (s ++ t) (as ++ bs) := by
  obtain ⟨front, rfl, rfl⟩ := hs
  obtain ⟨back, rfl, rfl⟩ := ht
  exact ⟨front ++ back, by rw [List.map_append, String.join_append], List.filterMap_append⟩

theorem comment_append {t : String} {as : List LdAssignment} (text : String) (h : Spells t as) :
    Spells ((LdPiece.comment text).text ++ t) as :=
  (piece (.comment text)).append h

theorem append_blank {t : String} {as : List LdAssignment} (h : Spells t as) :
    Spells (t ++ "\n") as := by
  have happend := h.append (piece .blank)
  rw [LdPiece.assigned, Option.toList_none, List.append_nil] at happend
  exact happend

theorem join {α : Type*} {f : α → String} {g : α → List LdAssignment} {xs : List α}
    (h : ∀ x ∈ xs, Spells (f x) (g x)) : Spells (String.join (xs.map f)) (xs.flatMap g) := by
  induction xs with
  | nil => exact nil
  | cons x xs ih =>
    rw [List.map_cons, String.join_cons, List.flatMap_cons]
    exact (h x List.mem_cons_self).append (ih fun y hy => h y (List.mem_cons_of_mem x hy))

theorem join_map {α : Type*} {f : α → String} {g : α → LdAssignment} {xs : List α}
    (h : ∀ x ∈ xs, Spells (f x) [g x]) : Spells (String.join (xs.map f)) (xs.map g) := by
  have hjoin := join h
  rw [← List.map_eq_flatMap] at hjoin
  exact hjoin

end Spells

/-! ### The parts of the file -/

theorem spells_assignment (shown : Bool) (s : PropagatedSymbol) :
    Spells (assignment shown s) [symbolAssignment shown s] := by
  rw [assignment_eq_line]
  exact Spells.piece (.assign (symbolAssignment shown s))

/-- The titles of the sections are comments. -/
theorem title_eq_comment {c : SymbolCategory × String} (hc : c ∈ categoryOrder) :
    ∃ title, c.2 = (LdPiece.comment title).text := by
  simp only [categoryOrder, List.mem_cons, List.not_mem_nil, or_false] at hc
  rcases hc with rfl | rfl | rfl
  · exact ⟨"Flash table addresses", by decide⟩
  · exact ⟨"RAM globals", by decide⟩
  · exact ⟨"Function entry points", by decide⟩

theorem spells_assignmentBlock (shown : Bool) (title : String) (symbols : List PropagatedSymbol) :
    Spells (assignmentBlock shown (LdPiece.comment title).text symbols)
      (symbols.map (symbolAssignment shown)) := by
  unfold assignmentBlock
  by_cases hempty : symbols = []
  · rw [if_pos hempty, hempty]
    exact Spells.nil
  · rw [if_neg hempty, String.append_assoc]
    refine Spells.comment_append title (Spells.append_blank ?_)
    exact Spells.join_map fun s _ => spells_assignment shown s

/-- The header is one comment, and each category a section of its own. -/
theorem spells_emitDescriptionLd (symbols : List PropagatedSymbol)
    (sourceRom referenceName variant matchSummary : String) (shown : Bool) :
    Spells (emitDescriptionLd symbols sourceRom referenceName variant matchSummary shown)
      ((assignedSymbols symbols).map (symbolAssignment shown)) := by
  have hsections : Spells (String.join (categoryOrder.map fun c =>
      assignmentBlock shown c.2 (byCat symbols c.1)))
        (categoryOrder.flatMap fun c => (byCat symbols c.1).map (symbolAssignment shown)) := by
    refine Spells.join fun c hc => ?_
    obtain ⟨title, htitle⟩ := title_eq_comment hc
    rw [htitle]
    exact spells_assignmentBlock shown title (byCat symbols c.1)
  have hheader : emitDescriptionLd symbols sourceRom referenceName variant matchSummary shown =
      (LdPiece.comment ("Generated by rom-analyzer from " ++ sourceRom ++ "\n" ++
        " * Reference: " ++ referenceName ++ "\n" ++ " * Variant:   " ++ variant ++ "\n" ++
        " * Matched:   " ++ matchSummary ++ "\n")).text ++
      (LdPiece.blank.text ++ String.join (categoryOrder.map fun c =>
        assignmentBlock shown c.2 (byCat symbols c.1))) := by
    have hopen : "/* Generated by rom-analyzer from " =
        "/* " ++ "Generated by rom-analyzer from " := by decide
    have hclose : " */\n\n" = " */\n" ++ "\n" := by decide
    unfold emitDescriptionLd
    generalize String.join (categoryOrder.map fun c =>
      assignmentBlock shown c.2 (byCat symbols c.1)) = sections
    simp only [LdPiece.text, hopen, hclose, String.append_assoc]
  rw [hheader, assignedSymbols, List.map_flatMap]
  exact Spells.comment_append _ ((Spells.piece .blank).append hsections)

theorem spells_emitMode23BindingLine (b : String × SpliceResolution) :
    Spells (emitMode23BindingLine b.1 b.2) (bindingAssignment b).toList := by
  cases hassigned : bindingAssignment b with
  | some a =>
    rw [emitMode23BindingLine_eq_line hassigned]
    exact Spells.piece (.assign a)
  | none =>
    have hcomment : ∃ text, emitMode23BindingLine b.1 b.2 = (LdPiece.comment text).text := by
      unfold bindingAssignment at hassigned
      unfold emitMode23BindingLine
      cases haddress : b.2.address with
      | none =>
        refine ⟨"VERIFY: " ++ b.1 ++
          " = <unresolved> (no matching call site — locate manually)", ?_⟩
        have hopen : "/* VERIFY: " = "/* " ++ "VERIFY: " := by decide
        have hclose : " = <unresolved> (no matching call site — locate manually) */\n" =
            " = <unresolved> (no matching call site — locate manually)" ++ " */\n" := by decide
        dsimp only
        rw [LdPiece.text, hopen, hclose]
        simp only [String.append_assoc]
      | some a =>
        have hlow : ¬ b.2.confidence = .high := by
          intro hhigh
          rw [haddress] at hassigned
          dsimp only at hassigned
          rw [if_pos hhigh] at hassigned
          cases hassigned
        refine ⟨"VERIFY: " ++ b.1 ++ " = " ++ hex a ++
          "; (low confidence — confirm in Ghidra)", ?_⟩
        have hopen : "/* VERIFY: " = "/* " ++ "VERIFY: " := by decide
        have hclose : "; (low confidence — confirm in Ghidra) */\n" =
            "; (low confidence — confirm in Ghidra)" ++ " */\n" := by decide
        dsimp only
        rw [if_neg hlow, LdPiece.text, hopen, hclose]
        simp only [String.append_assoc]
    obtain ⟨text, htext⟩ := hcomment
    rw [htext]
    exact Spells.piece (.comment text)

theorem spells_emitObdPidSymbols (pidEntries : List OBDPidEntry) :
    Spells (emitObdPidSymbols pidEntries) (pidEntries.map pidAssignment) := by
  unfold emitObdPidSymbols
  by_cases hempty : pidEntries = []
  · rw [if_pos hempty, hempty]
    exact Spells.nil
  · rw [if_neg hempty]
    have htitle : "\n/* OBD PID source RAM addresses (auto-discovered by --emit-obd) */\n" =
        LdPiece.blank.text ++ (LdPiece.comment
          "OBD PID source RAM addresses (auto-discovered by --emit-obd)").text := by decide
    rw [htitle, String.append_assoc]
    refine (Spells.piece .blank).append (Spells.comment_append _ ?_)
    exact Spells.join_map fun p _ => Spells.piece (.provide (pidAssignment p))

/-! ### The whole file -/

theorem spells_mode23Lines {analysis : AnalysisResult}
    (hnote : ∀ note ∈ analysis.bindingNote, ∃ text, note = (LdPiece.comment text).text) :
    Spells (String.join analysis.mode23Lines)
      (analysis.bindings.filterMap bindingAssignment) := by
  have hlines : Spells (String.join (analysis.bindings.map fun b => emitMode23BindingLine b.1 b.2))
      (analysis.bindings.filterMap bindingAssignment) := by
    rw [List.filterMap_eq_flatMap_toList]
    exact Spells.join fun b _ => spells_emitMode23BindingLine b
  have hnotes : Spells (String.join analysis.bindingNote.toList) [] := by
    cases hsome : analysis.bindingNote with
    | none => exact Spells.nil
    | some note =>
      obtain ⟨text, rfl⟩ := hnote note hsome
      rw [Option.toList_some, String.join_cons]
      exact Spells.comment_append text Spells.nil
  have happend := hlines.append hnotes
  rw [List.append_nil, ← String.join_append] at happend
  exact happend

/-- The whole text: what it assigns, in this order, is what the passes gave. -/
theorem descriptionLd_spells (texts : OutputTexts) (merged : MergeResult)
    (analysis : AnalysisResult) (primary : ReferenceMatchResult) (selectedCount : Nat)
    (hnote : ∀ note ∈ analysis.bindingNote, ∃ text, note = (LdPiece.comment text).text) :
    Spells (descriptionLd texts merged analysis primary selectedCount)
      (descriptionAssignments (1 < selectedCount) merged.propagated analysis) := by
  have hbindings : Spells (if analysis.mode23Lines = [] then ""
      else "\n/* mode 0x23 splice-site bindings (--emit-mode23) */\n" ++
        String.join analysis.mode23Lines) (analysis.bindings.filterMap bindingAssignment) := by
    have hlines := spells_mode23Lines hnote
    by_cases hempty : analysis.mode23Lines = []
    · rw [if_pos hempty]
      rw [hempty] at hlines
      exact hlines
    · have htitle : "\n/* mode 0x23 splice-site bindings (--emit-mode23) */\n" =
          LdPiece.blank.text ++ (LdPiece.comment
            "mode 0x23 splice-site bindings (--emit-mode23)").text := by decide
      rw [if_neg hempty, htitle, String.append_assoc]
      exact (Spells.piece .blank).append (Spells.comment_append _ hlines)
  exact ((spells_emitDescriptionLd _ _ _ _ _ _).append hbindings).append
    (spells_emitObdPidSymbols analysis.pidEntries)

theorem resolveCanCallSites_note (callers : List Nat) (slotOf : Dict Nat (Option Int)) :
    ∃ text, (Mode23Bindings.resolveCanCallSites callers slotOf).2 = (LdPiece.comment text).text := by
  unfold Mode23Bindings.resolveCanCallSites
  dsimp only
  split
  · refine ⟨"VERIFY: canrx12 slot=2, canrx15 slot=1 (matches hardcoded trampoline)", ?_⟩
    dsimp only
    decide
  · refine ⟨"VERIFY: expected 2 callers with slots \x7b2,1\x7d; got " ++
      toString (Mode23Bindings.sortedSites callers).length ++ " [" ++
      (if Mode23Bindings.sortedSites callers = [] then "none"
        else String.intercalate ", " ((Mode23Bindings.sortedSites callers).map fun a =>
          hexText a ++ ":slot=" ++
            Mode23Bindings.slotText (Mode23Bindings.slotAt slotOf a))) ++
      "] — confirm each site's buffer by hand", ?_⟩
    have hopen : "/* VERIFY: expected 2 callers with slots \x7b2,1\x7d; got " =
        "/* " ++ "VERIFY: expected 2 callers with slots \x7b2,1\x7d; got " := by decide
    have hclose : "] — confirm each site's buffer by hand */\n" =
        "] — confirm each site's buffer by hand" ++ " */\n" := by decide
    simp only [LdPiece.text, hopen, hclose, String.append_assoc]

/-- In every run the assignments of `description.ld` are those of the merged symbols, of the
bindings of high confidence and of the PIDs; the rest are comments and blank lines. -/
theorem analyze_descriptionLd_spells (texts : OutputTexts) (queries : PostMatchQueries)
    (resolve : Path → Path) (target : Target) (sel : Selection) (emitMode23 : Bool)
    (minFlashBlock : Nat) (emitObd : Bool) (flashBlocks : List FlashFreeBlock) :
    let post := analyzePostMatch queries resolve target sel emitMode23 minFlashBlock emitObd
      flashBlocks
    Spells (descriptionLd texts post.1 post.2
        (analyzePrimary resolve target sel emitMode23 minFlashBlock) sel.all.length)
      (descriptionAssignments (showProvenance sel) post.1.propagated post.2) := by
  intro post
  apply descriptionLd_spells
  intro note hnote
  obtain ⟨can, hcan, rfl⟩ := Option.map_eq_some_iff.mp hnote
  unfold canSites at hcan
  split at hcan
  · cases hcan
  · obtain ⟨site, _, rfl⟩ := Option.map_eq_some_iff.mp hcan
    exact resolveCanCallSites_note _ _

end RomAnalyzer.Pipeline
