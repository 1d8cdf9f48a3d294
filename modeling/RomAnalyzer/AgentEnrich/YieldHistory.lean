import RomAnalyzer.AgentEnrich.Rounds

/-!
# When a naming loop stops

Two loops, one over the functions and one over the variables, keep their queues, the yields
of their rounds and their end marks in one directory. Whatever order their steps come in,
each loop reads back what it alone wrote, and stops on its own rounds.
-/
namespace RomAnalyzer.AgentEnrich

open Lib
open Lib.Json (reqInt)

/-! ### The yields -/

/-- The file of a loop's yields, and the keys of its counts. -/
structure YieldFile where
  file : String
  applied : String
  review : String
  deriving DecidableEq, Repr

def yieldHistory : YieldFile := ⟨"yield_history.json", "applied", "review"⟩

def varYieldHistory : YieldFile := ⟨"yield_history_vars.json", "vars_applied", "vars_review"⟩

/-- What a round gave. -/
structure Yield where
  roundNum : Int
  applied : Int
  review : Int
  deriving DecidableEq, Repr

def Yield.toDict (keys : YieldFile) (y : Yield) : Json :=
  .obj [("round", .int y.roundNum), (keys.applied, .int y.applied), (keys.review, .int y.review)]

/-- `history.append(..)`: only a list has it. -/
def appendItem (item : Json) : Json → Option Json
  | .list items => some (.list (items ++ [item]))
  | _ => none

/-- `len(history)` -/
def lengthOf : Json → Option Nat
  | .list items => some items.length
  | .obj fields => some fields.length
  | .str s => some s.toList.length
  | _ => none

/-- `history[-window:]`; what it gives of a text has no counts. -/
def recentOf (window : Int) : Json → Option (List Json)
  | .list items => some (items.drop (sliceIndex items.length (-window)))
  | .str s =>
    some ((s.toList.drop (sliceIndex s.toList.length (-window))).map
      fun c => .str (String.singleton c))
  | _ => none

/-- The first round that is not below the threshold ends the search. -/
def allBelow (key : String) (threshold : Int) : List Json → Option Bool
  | [] => some true
  | r :: rs => do
    let applied ← reqInt key r
    if applied < threshold then allBelow key threshold rs else return false

section Yields

variable (floatText : String → String) (keys : YieldFile)

def loadHistory (stateDir : StateDir) : Option Json :=
  match stateDir keys.file with
  | none => some (.list [])
  | some text => Json.loads floatText text

def appendRound (stateDir : StateDir) (y : Yield) : Option StateDir := do
  let history ← loadHistory floatText keys stateDir
  let appended ← appendItem (y.toDict keys) history
  return Function.update stateDir keys.file (some (Json.dumps appended))

def checkStop (stateDir : StateDir) (window threshold : Int) : Option Bool := do
  let history ← loadHistory floatText keys stateDir
  let length ← lengthOf history
  if (length : Int) < window then return false
  let recent ← recentOf window history
  allBelow keys.applied threshold recent

end Yields

section Files

variable (floatText : String → String)

def loadYieldHistory : StateDir → Option Json := loadHistory floatText yieldHistory

def loadVarYieldHistory : StateDir → Option Json := loadHistory floatText varYieldHistory

def appendYield (stateDir : StateDir) (roundNum applied review : Int) : Option StateDir :=
  appendRound floatText yieldHistory stateDir ⟨roundNum, applied, review⟩

def appendVarYield (stateDir : StateDir) (roundNum varsApplied varsReview : Int) :
    Option StateDir :=
  appendRound floatText varYieldHistory stateDir ⟨roundNum, varsApplied, varsReview⟩

def checkStopCondition (stateDir : StateDir) (window threshold : Int) : Option Bool :=
  checkStop floatText yieldHistory stateDir window threshold

def checkVarStopCondition (stateDir : StateDir) (window threshold : Int) : Option Bool :=
  checkStop floatText varYieldHistory stateDir window threshold

end Files

/-- `touch`: a file that is there keeps its text. -/
def touch (file : String) (stateDir : StateDir) : StateDir :=
  Function.update stateDir file (some ((stateDir file).getD ""))

def isDone (stateDir : StateDir) : Bool := (stateDir "done").isSome

def writeDone : StateDir → StateDir := touch "done"

def isVarDone (stateDir : StateDir) : Bool := (stateDir "done_vars").isSome

def writeVarDone : StateDir → StateDir := touch "done_vars"

/-! ### One loop -/

/-- What one loop has said so far. -/
structure NamingLoop where
  queue : List QueueEntry := []
  yields : List Yield := []
  done : Bool := false
  deriving DecidableEq, Repr

inductive LoopMove where
  | save (queue : List QueueEntry)
  | append (y : Yield)
  | finish

def NamingLoop.step (loop : NamingLoop) : LoopMove → NamingLoop
  | .save queue => { loop with queue := queue }
  | .append y => { loop with yields := loop.yields ++ [y] }
  | .finish => { loop with done := true }

/-- The last rounds of the window are there, and all of them gave too little. -/
def NamingLoop.Exhausted (loop : NamingLoop) (window : Nat) (threshold : Int) : Prop :=
  window ≤ loop.yields.length ∧
    ∀ y ∈ loop.yields.drop (loop.yields.length - window), y.applied < threshold

instance (loop : NamingLoop) (window : Nat) (threshold : Int) :
    Decidable (loop.Exhausted window threshold) :=
  inferInstanceAs (Decidable (_ ∧ _))

/-! ### Both loops in one directory -/

/-- A step of one of the two loops. -/
inductive SharedMove where
  | onFns (move : LoopMove)
  | onVars (move : LoopMove)

def SharedMove.ofFns : SharedMove → Option LoopMove
  | .onFns move => some move
  | .onVars _ => none

def SharedMove.ofVars : SharedMove → Option LoopMove
  | .onFns _ => none
  | .onVars move => some move

section Run

variable (floatText : String → String)

def runMove (stateDir : StateDir) : SharedMove → Option StateDir
  | .onFns (.save queue) => some (saveQueue stateDir queue)
  | .onFns (.append y) => appendYield floatText stateDir y.roundNum y.applied y.review
  | .onFns .finish => some (writeDone stateDir)
  | .onVars (.save queue) => some (saveVarQueue stateDir queue)
  | .onVars (.append y) => appendVarYield floatText stateDir y.roundNum y.applied y.review
  | .onVars .finish => some (writeVarDone stateDir)

def runMoves (stateDir : StateDir) (moves : List SharedMove) : Option StateDir :=
  moves.foldlM (runMove floatText) stateDir

end Run

/-- The files of a loop. -/
structure LoopFiles where
  queueFile : String
  yieldFile : YieldFile
  doneFile : String

def functionFiles : LoopFiles := ⟨"queue.json", yieldHistory, "done"⟩

def variableFiles : LoopFiles := ⟨"queue_vars.json", varYieldHistory, "done_vars"⟩

/-- The keys of the counts are two, and none of them is that of the round. -/
def YieldFile.Distinct (keys : YieldFile) : Prop :=
  ["round", keys.applied, keys.review].Nodup

instance (keys : YieldFile) : Decidable keys.Distinct := inferInstanceAs (Decidable (List.Nodup _))

section Represents

variable (floatText : String → String) (files : LoopFiles)

/-- The files of a loop say what the loop said. -/
structure Represents (stateDir : StateDir) (loop : NamingLoop) : Prop where
  queue : loadEntries floatText files.queueFile stateDir = some (sortDescending loop.queue)
  yields : loadHistory floatText files.yieldFile stateDir =
    some (.list (loop.yields.map (Yield.toDict files.yieldFile)))
  done : (stateDir files.doneFile).isSome = loop.done

end Represents

/-! ### The texts read back -/

theorem plain_yieldDict {keys : YieldFile} (hkeys : keys.Distinct) (y : Yield) :
    (y.toDict keys).Plain :=
  ⟨hkeys, trivial, trivial, trivial, trivial⟩

section Steps

variable {floatText : String → String} {files : LoopFiles} {stateDir : StateDir} {loop : NamingLoop}

/-- What a loop reads depends on its own files only. -/
theorem Represents.congr {stateDir' : StateDir} (h : Represents floatText files stateDir loop)
    (hqueue : stateDir' files.queueFile = stateDir files.queueFile)
    (hyields : stateDir' files.yieldFile.file = stateDir files.yieldFile.file)
    (hdone : stateDir' files.doneFile = stateDir files.doneFile) :
    Represents floatText files stateDir' loop where
  queue := by
    unfold loadEntries
    rw [hqueue]
    exact h.queue
  yields := by
    unfold loadHistory
    rw [hyields]
    exact h.yields
  done := by
    rw [hdone]
    exact h.done

theorem appendRound_eq (hkeys : files.yieldFile.Distinct)
    (h : Represents floatText files stateDir loop) (y : Yield) :
    ∃ text, appendRound floatText files.yieldFile stateDir y =
        some (Function.update stateDir files.yieldFile.file (some text)) ∧
      Json.loads floatText text =
        some (.list ((loop.yields ++ [y]).map (Yield.toDict files.yieldFile))) := by
  have hplain : (Json.list ((loop.yields ++ [y]).map (Yield.toDict files.yieldFile))).Plain :=
    plainItems_map (plain_yieldDict hkeys) _
  refine ⟨Json.dumps (.list ((loop.yields ++ [y]).map (Yield.toDict files.yieldFile))), ?_,
    Json.loads_dumps hplain⟩
  unfold appendRound
  rw [h.yields, List.map_append]
  rfl

/-- One step of a loop, on the files of that loop. -/
def stepFiles (floatText : String → String) (files : LoopFiles) (stateDir : StateDir) :
    LoopMove → Option StateDir
  | .save queue => some (saveEntries files.queueFile stateDir queue)
  | .append y => appendRound floatText files.yieldFile stateDir y
  | .finish => some (touch files.doneFile stateDir)

/-- The three files of a loop are three. -/
def LoopFiles.Distinct (files : LoopFiles) : Prop :=
  files.yieldFile.Distinct ∧
    [files.queueFile, files.yieldFile.file, files.doneFile].Nodup

/-- No file belongs to both. -/
def LoopFiles.Apart (files others : LoopFiles) : Prop :=
  ∀ f ∈ [files.queueFile, files.yieldFile.file, files.doneFile],
    f ∉ [others.queueFile, others.yieldFile.file, others.doneFile]

instance (files others : LoopFiles) : Decidable (files.Apart others) :=
  inferInstanceAs (Decidable (∀ _ ∈ _, _))

/-- A step succeeds, its loop reads back what it now says, and no file of others is touched. -/
theorem stepFiles_represents (hfiles : files.Distinct)
    (h : Represents floatText files stateDir loop) (move : LoopMove) :
    ∃ stateDir', stepFiles floatText files stateDir move = some stateDir' ∧
      Represents floatText files stateDir' (loop.step move) ∧
      ∀ f ∉ [files.queueFile, files.yieldFile.file, files.doneFile],
        stateDir' f = stateDir f := by
  obtain ⟨hkeys, hnames⟩ := hfiles
  have hqy : files.queueFile ≠ files.yieldFile.file := by
    intro he
    simp [he] at hnames
  have hqd : files.queueFile ≠ files.doneFile := by
    intro he
    simp [he] at hnames
  have hyd : files.yieldFile.file ≠ files.doneFile := by
    intro he
    simp [he] at hnames
  have hframe : ∀ g ∈ [files.queueFile, files.yieldFile.file, files.doneFile],
      ∀ text : Option String, ∀ f ∉ [files.queueFile, files.yieldFile.file, files.doneFile],
        Function.update stateDir g text f = stateDir f := by
    intro g hg text f hf
    have hne : f ≠ g := fun he => hf (he ▸ hg)
    exact Function.update_of_ne hne text stateDir
  cases move with
  | save queue =>
    refine ⟨_, rfl, ?_, hframe _ (by simp) _⟩
    constructor
    · exact loadEntries_saveEntries files.queueFile stateDir queue
    · unfold loadHistory saveEntries
      rw [Function.update_of_ne hqy.symm]
      exact h.yields
    · unfold saveEntries
      rw [Function.update_of_ne hqd.symm]
      exact h.done
  | append y =>
    obtain ⟨text, hrun, hloads⟩ := appendRound_eq hkeys h y
    refine ⟨_, hrun, ?_, hframe _ (by simp) _⟩
    constructor
    · unfold loadEntries
      rw [Function.update_of_ne hqy]
      exact h.queue
    · unfold loadHistory
      rw [Function.update_self]
      exact hloads
    · rw [Function.update_of_ne hyd.symm]
      exact h.done
  | finish =>
    refine ⟨_, rfl, ?_, hframe _ (by simp) _⟩
    constructor
    · unfold loadEntries touch
      rw [Function.update_of_ne hqd]
      exact h.queue
    · unfold loadHistory touch
      rw [Function.update_of_ne hyd]
      exact h.yields
    · unfold touch
      rw [Function.update_self]
      rfl

/-! ### The decision -/

theorem reqInt_applied {keys : YieldFile} (hkeys : keys.Distinct) (y : Yield) :
    reqInt keys.applied (y.toDict keys) = some y.applied := by
  have hne : "round" ≠ keys.applied := by
    intro he
    simp [YieldFile.Distinct, ← he] at hkeys
  simp [reqInt, Yield.toDict, Json.field?, Json.int?, find, hne]

theorem allBelow_toDict {keys : YieldFile} (hkeys : keys.Distinct) (threshold : Int)
    (ys : List Yield) :
    allBelow keys.applied threshold (ys.map (Yield.toDict keys)) =
      some (decide (∀ y ∈ ys, y.applied < threshold)) := by
  induction ys with
  | nil => rfl
  | cons y ys ih =>
    rw [List.map_cons, allBelow, reqInt_applied hkeys]
    by_cases hy : y.applied < threshold
    · simp [hy, ih]
    · simp [hy]

/-- A loop stops when its own last rounds gave too little. -/
theorem checkStop_represents (hfiles : files.Distinct)
    (h : Represents floatText files stateDir loop) {window : Nat} (hwindow : 0 < window)
    (threshold : Int) :
    checkStop floatText files.yieldFile stateDir window threshold =
      some (decide (loop.Exhausted window threshold)) := by
  unfold checkStop
  rw [h.yields]
  dsimp only [Option.bind_eq_bind, Option.bind_some, lengthOf, recentOf]
  rw [List.length_map]
  by_cases hlen : loop.yields.length < window
  · have hshort : ((loop.yields.length : Int)) < window := by omega
    rw [if_pos hshort]
    have hnot : ¬loop.Exhausted window threshold := fun hex => by
      have := hex.1
      omega
    rw [decide_eq_false hnot]
    rfl
  · have hlong : ¬((loop.yields.length : Int)) < window := by omega
    have hindex : sliceIndex loop.yields.length (-window) = loop.yields.length - window := by
      unfold sliceIndex
      rw [if_neg (by omega)]
      omega
    rw [if_neg hlong, hindex, ← List.map_drop]
    show allBelow files.yieldFile.applied threshold _ = _
    rw [allBelow_toDict hfiles.1]
    have hle : window ≤ loop.yields.length := by omega
    simp only [NamingLoop.Exhausted, hle, true_and]

end Steps

/-! ### Any order of steps -/

theorem functionFiles_distinct : functionFiles.Distinct := by
  constructor <;> decide

theorem variableFiles_distinct : variableFiles.Distinct := by
  constructor <;> decide

theorem files_apart : functionFiles.Apart variableFiles ∧ variableFiles.Apart functionFiles := by
  constructor <;> decide

section Interleaving

variable {floatText : String → String}

/-- What a step does to the files of one loop leaves the other loop as it was. -/
theorem Represents.frame {files others : LoopFiles} {stateDir stateDir' : StateDir} {loop : NamingLoop}
    (hapart : others.Apart files) (h : Represents floatText others stateDir loop)
    (hframe : ∀ f ∉ [files.queueFile, files.yieldFile.file, files.doneFile],
      stateDir' f = stateDir f) : Represents floatText others stateDir' loop :=
  h.congr (hframe _ (hapart _ (by simp))) (hframe _ (hapart _ (by simp)))
    (hframe _ (hapart _ (by simp)))

/-- Any order of the steps of the two loops succeeds, and each loop then reads what its own
steps alone give. -/
theorem runMoves_represents {stateDir : StateDir} {fns vars : NamingLoop} (moves : List SharedMove)
    (hfns : Represents floatText functionFiles stateDir fns)
    (hvars : Represents floatText variableFiles stateDir vars) :
    ∃ stateDir', runMoves floatText stateDir moves = some stateDir' ∧
      Represents floatText functionFiles stateDir'
        ((moves.filterMap SharedMove.ofFns).foldl NamingLoop.step fns) ∧
      Represents floatText variableFiles stateDir'
        ((moves.filterMap SharedMove.ofVars).foldl NamingLoop.step vars) := by
  induction moves generalizing stateDir fns vars with
  | nil => exact ⟨stateDir, rfl, hfns, hvars⟩
  | cons move moves ih =>
    cases move with
    | onFns move =>
      obtain ⟨next, hstep, hown, hframe⟩ :=
        stepFiles_represents functionFiles_distinct hfns move
      obtain ⟨last, hrun, hf, hv⟩ := ih hown (hvars.frame files_apart.2 hframe)
      have hmove : runMove floatText stateDir (.onFns move) = some next := by
        cases move <;> exact hstep
      refine ⟨last, ?_, hf, hv⟩
      rw [runMoves, List.foldlM_cons, hmove]
      exact hrun
    | onVars move =>
      obtain ⟨next, hstep, hown, hframe⟩ :=
        stepFiles_represents variableFiles_distinct hvars move
      obtain ⟨last, hrun, hf, hv⟩ := ih (hfns.frame files_apart.1 hframe) hown
      have hmove : runMove floatText stateDir (.onVars move) = some next := by
        cases move <;> exact hstep
      refine ⟨last, ?_, hf, hv⟩
      rw [runMoves, List.foldlM_cons, hmove]
      exact hrun

/-- What a loop says after its own steps in a run that starts with nothing. -/
def loopOf (own : SharedMove → Option LoopMove) (moves : List SharedMove) : NamingLoop :=
  (moves.filterMap own).foldl NamingLoop.step {}

/-- What a loop reads: its queue, its end mark, and whether to stop. -/
structure Reads (floatText : String → String) (files : LoopFiles) (stateDir : StateDir)
    (loop : NamingLoop) : Prop where
  queue : loadEntries floatText files.queueFile stateDir = some (sortDescending loop.queue)
  done : (stateDir files.doneFile).isSome = loop.done
  stop : ∀ window : Nat, 0 < window → ∀ threshold : Int,
    checkStop floatText files.yieldFile stateDir window threshold =
      some (decide (loop.Exhausted window threshold))

theorem Represents.reads {files : LoopFiles} {stateDir : StateDir} {loop : NamingLoop}
    (hfiles : files.Distinct) (h : Represents floatText files stateDir loop) :
    Reads floatText files stateDir loop where
  queue := h.queue
  done := h.done
  stop := fun _ hwindow threshold => checkStop_represents hfiles h hwindow threshold

theorem represents_empty (floatText : String → String) (files : LoopFiles) :
    Represents floatText files (fun _ => none) {} where
  queue := rfl
  yields := rfl
  done := rfl

/-- From an empty directory, whatever order the steps of the two loops come in: no step fails,
each loop loads the queue that it saved last, finds its end mark when it set it, and is told
to stop when the last rounds of its own that fill the window each applied too few names. -/
theorem loops_read_their_own (floatText : String → String) (moves : List SharedMove) :
    ∃ stateDir, runMoves floatText (fun _ => none) moves = some stateDir ∧
      Reads floatText functionFiles stateDir (loopOf SharedMove.ofFns moves) ∧
      Reads floatText variableFiles stateDir (loopOf SharedMove.ofVars moves) := by
  obtain ⟨stateDir, hrun, hfns, hvars⟩ := runMoves_represents moves
    (represents_empty floatText functionFiles) (represents_empty floatText variableFiles)
  exact ⟨stateDir, hrun, hfns.reads functionFiles_distinct, hvars.reads variableFiles_distinct⟩

end Interleaving

end RomAnalyzer.AgentEnrich
