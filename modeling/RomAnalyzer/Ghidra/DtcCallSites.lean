import RomAnalyzer.Lib.Moves

/-!
# Call sites of the trouble-code functions

The mask and the index of a call are the constants in `r0` and `r1`. They are looked for
backwards from the call, through register moves. One instruction serves one of the two
registers: what is taken for `r0` is not seen by the search for `r1`.
-/
namespace RomAnalyzer.Ghidra

open Lib

/-- One instruction of the listing. -/
structure ListingInstruction where
  mnemonic : String
  operands : List String
  /-- the scalar of the second operand -/
  scalar : Option Int
  deriving DecidableEq, Repr

/-- What is found so far, and the registers that are looked for. -/
structure Walk where
  mask : Option Nat := none
  idx : Option Nat := none
  r0Src : String := "r0"
  r1Src : String := "r1"
  deriving DecidableEq, Repr

/-- `int(sc.getValue()) & 0xFFFF` -/
def low16 (value : Int) : Nat := (value % 0x10000).toNat

def walkStep (w : Walk) (cur : ListingInstruction) : Walk :=
  if cur.mnemonic.toLower = "ldi" then
    match cur.operands with
    | dest :: _ :: _ =>
      if dest = w.r0Src ∧ w.mask = none then
        match cur.scalar with
        | some sc => { w with mask := some (low16 sc) }
        | none => w
      else if dest = w.r1Src ∧ w.idx = none then
        match cur.scalar with
        | some sc => { w with idx := some (low16 sc) }
        | none => w
      else w
    | _ => w
  else if cur.mnemonic.toLower = "mv" then
    match cur.operands with
    | dest :: source :: _ =>
      if dest = w.r0Src then { w with r0Src := source }
      else if dest = w.r1Src then { w with r1Src := source }
      else w
    | _ => w
  else w

/-- The instructions in front of the call, nearest first, until both constants are found. -/
def walkBack : Nat → List ListingInstruction → Walk → Walk
  | 0, _, w => w
  | _, [], w => w
  | steps + 1, cur :: rest, w =>
    if w.mask = none ∨ w.idx = none then walkBack steps rest (walkStep w cur) else w

/-- The listing in front of a call, in the order of the addresses. -/
def maskAndIdx (before : List ListingInstruction) (maxBack : Nat := 8) : Walk :=
  walkBack maxBack before.reverse {}

/-! ### Call sites -/

/-- A reference to one of the two functions. -/
structure CallRef where
  fromAddress : Int
  isCall : Bool
  /-- the listing in front of the reference -/
  before : List ListingInstruction
  /-- entry point and name of the function around it -/
  caller : Option (Int × String)

structure DtcCallSite where
  callSite : Nat
  callerAddr : Nat
  callerName : Option String
  mask : Option Nat
  idx : Option Nat
  isSet : Bool
  deriving DecidableEq, Repr

/-- `& 0xFFFFFFFF` -/
def offset32 (a : Int) : Nat := (a % 0x100000000).toNat

def dtcCallSite (isSet : Bool) (maxBack : Nat) (ref : CallRef) : DtcCallSite where
  callSite := offset32 ref.fromAddress
  callerAddr := match ref.caller with
    | some (entry, _) => offset32 entry
    | none => offset32 ref.fromAddress
  callerName := ref.caller.map Prod.snd
  mask := (maskAndIdx ref.before maxBack).mask
  idx := (maskAndIdx ref.before maxBack).idx
  isSet := isSet

/-- The calls of the function that sets a code, then those of the one that clears it. -/
def fetchDtcCallSites (referencesTo : Nat → List CallRef) (setAddr resetAddr : Option Nat)
    (maxBack : Nat := 8) : List DtcCallSite :=
  [(true, setAddr), (false, resetAddr)].flatMap fun target =>
    match target.2 with
    | none => []
    | some addr =>
      ((referencesTo addr).filter CallRef.isCall).map (dtcCallSite target.1 maxBack)

/-! ### Straight-line code -/

/-- The instruction is `ldi Rd,#imm` or `mv Rd,Rs`, on registers of 32 bits. -/
inductive Listed : ListingInstruction → Move String (BitVec 32) → Prop
  | ldi {i : ListingInstruction} {rd text : String} {sc : Int} (mnemonic : i.mnemonic.toLower = "ldi")
      (operands : i.operands = [rd, text]) (scalar : i.scalar = some sc) :
      Listed i (.load rd (BitVec.ofInt 32 sc))
  | mv {i : ListingInstruction} {rd rs : String} (mnemonic : i.mnemonic.toLower = "mv")
      (operands : i.operands = [rd, rs]) : Listed i (.copy rd rs)

/-- The listing in front of a call, with what it executes. -/
structure StraightLine where
  before : List ListingInstruction
  code : List (Move String (BitVec 32))
  listed : List.Forall₂ Listed before code

/-- The low 16 bits of a register. -/
def lowHalf (x : BitVec 32) : Nat := x.toNat % 0x10000

/-- A mask and an index that are reported are the low halves of `r0` and `r1` at the call,
whatever the registers held before. -/
def StraightLine.ReportsRight (s : StraightLine) (maxBack : Nat) : Prop :=
  ∀ regs : String → BitVec 32,
    (∀ mask, (maskAndIdx s.before maxBack).mask = some mask →
      mask = lowHalf (Move.run regs s.code "r0")) ∧
    ∀ idx, (maskAndIdx s.before maxBack).idx = some idx →
      idx = lowHalf (Move.run regs s.code "r1")

/-- The instructions that the search for `r0` leaves to the other one. It takes every move
to the register it follows, and the nearest load of it. -/
def leftByR0 (r0Src : String) (sought : Bool) :
    List (Move String (BitVec 32)) → List (Move String (BitVec 32))
  | [] => []
  | .load d v :: rest =>
    if d = r0Src ∧ sought = true then leftByR0 r0Src false rest
    else .load d v :: leftByR0 r0Src sought rest
  | .copy d s :: rest =>
    if d = r0Src then leftByR0 s sought rest
    else .copy d s :: leftByR0 r0Src sought rest

/-- The low half of a constant. -/
def lowConstant : Source String (BitVec 32) → Option Nat
  | .value v => some (lowHalf v)
  | .register _ => none

theorem lowHalf_ofInt (sc : Int) : lowHalf (BitVec.ofInt 32 sc) = low16 sc := by
  rw [lowHalf, BitVec.toNat_ofInt, low16]
  omega

theorem walkStep_ldi {cur : ListingInstruction} {rd text : String} {sc : Int}
    (hmnemonic : cur.mnemonic.toLower = "ldi") (hoperands : cur.operands = [rd, text])
    (hscalar : cur.scalar = some sc) (w : Walk) :
    walkStep w cur =
      if rd = w.r0Src ∧ w.mask = none then { w with mask := some (low16 sc) }
      else if rd = w.r1Src ∧ w.idx = none then { w with idx := some (low16 sc) }
      else w := by
  rw [walkStep, if_pos hmnemonic, hoperands, hscalar]

theorem walkStep_mv {cur : ListingInstruction} {rd rs : String}
    (hmnemonic : cur.mnemonic.toLower = "mv") (hoperands : cur.operands = [rd, rs]) (w : Walk) :
    walkStep w cur =
      if rd = w.r0Src then { w with r0Src := rs }
      else if rd = w.r1Src then { w with r1Src := rs }
      else w := by
  have hldi : ¬ cur.mnemonic.toLower = "ldi" := by
    rw [hmnemonic]
    decide
  rw [walkStep, if_neg hldi, if_pos hmnemonic, hoperands]

/-- What the walk still finds: the constant that `r0` is followed to, and that `r1` is
followed to over what the search for `r0` leaves. -/
def FindsConstants (nearest : List (Move String (BitVec 32))) (w found : Walk) : Prop :=
  found.mask = w.mask.or (lowConstant (Move.trace (.register w.r0Src) nearest)) ∧
    found.idx = w.idx.or (lowConstant (Move.trace (.register w.r1Src)
      (leftByR0 w.r0Src w.mask.isNone nearest)))

theorem findsConstants_of_found {w : Walk} (hmask : w.mask ≠ none) (hidx : w.idx ≠ none)
    (nearest : List (Move String (BitVec 32))) : FindsConstants nearest w w := by
  obtain ⟨mask, hmask⟩ := Option.ne_none_iff_exists'.mp hmask
  obtain ⟨idx, hidx⟩ := Option.ne_none_iff_exists'.mp hidx
  rw [FindsConstants, hmask, hidx]
  exact ⟨rfl, rfl⟩

/-- A load serves the search for `r0`, else the one for `r1`, else none. -/
theorem findsConstants_ldi {rd : String} {sc : Int} {nearest : List (Move String (BitVec 32))}
    {w found : Walk}
    (h : FindsConstants nearest
      (if rd = w.r0Src ∧ w.mask = none then { w with mask := some (low16 sc) }
        else if rd = w.r1Src ∧ w.idx = none then { w with idx := some (low16 sc) }
        else w) found) :
    FindsConstants (.load rd (BitVec.ofInt 32 sc) :: nearest) w found := by
  obtain ⟨mask, idx, r0Src, r1Src⟩ := w
  by_cases hr0 : rd = r0Src ∧ mask = none
  · obtain ⟨rfl, rfl⟩ := hr0
    simpa [FindsConstants, leftByR0, lowConstant, lowHalf_ofInt] using h
  · have hleft : leftByR0 r0Src mask.isNone (.load rd (BitVec.ofInt 32 sc) :: nearest) =
        .load rd (BitVec.ofInt 32 sc) :: leftByR0 r0Src mask.isNone nearest := by
      rw [leftByR0, if_neg (by simpa using hr0)]
    have hmask : mask.or (lowConstant
          (Move.trace (.register r0Src) (.load rd (BitVec.ofInt 32 sc) :: nearest))) =
        mask.or (lowConstant (Move.trace (.register r0Src) nearest)) := by
      cases mask with
      | some n => rfl
      | none => rw [Move.trace_cons, Move.back_load_of_ne fun heq => hr0 ⟨heq, rfl⟩]
    rw [if_neg hr0] at h
    rw [FindsConstants, hleft, hmask]
    by_cases hr1 : rd = r1Src ∧ idx = none
    · obtain ⟨rfl, rfl⟩ := hr1
      simpa [FindsConstants, lowConstant, lowHalf_ofInt] using h
    · have hidx : idx.or (lowConstant (Move.trace (.register r1Src)
            (.load rd (BitVec.ofInt 32 sc) :: leftByR0 r0Src mask.isNone nearest))) =
          idx.or (lowConstant (Move.trace (.register r1Src)
            (leftByR0 r0Src mask.isNone nearest))) := by
        cases idx with
        | some n => rfl
        | none => rw [Move.trace_cons, Move.back_load_of_ne fun heq => hr1 ⟨heq, rfl⟩]
      rw [if_neg hr1] at h
      rw [hidx]
      exact h

/-- A move serves the search for `r0`, else the one for `r1`, else none. -/
theorem findsConstants_mv {rd rs : String} {nearest : List (Move String (BitVec 32))}
    {w found : Walk}
    (h : FindsConstants nearest
      (if rd = w.r0Src then { w with r0Src := rs }
        else if rd = w.r1Src then { w with r1Src := rs }
        else w) found) :
    FindsConstants (.copy rd rs :: nearest) w found := by
  obtain ⟨mask, idx, r0Src, r1Src⟩ := w
  by_cases hr0 : rd = r0Src
  · subst hr0
    simpa [FindsConstants, leftByR0] using h
  · rw [if_neg hr0] at h
    rw [FindsConstants, leftByR0, if_neg hr0, Move.trace_cons, Move.back_copy_of_ne hr0,
      Move.trace_cons]
    by_cases hr1 : rd = r1Src
    · subst hr1
      simpa [FindsConstants] using h
    · rw [if_neg hr1] at h
      rw [Move.back_copy_of_ne hr1]
      exact h

/-- One step takes the nearest instruction off the search. -/
theorem findsConstants_step {cur : ListingInstruction} {m : Move String (BitVec 32)}
    {nearest : List (Move String (BitVec 32))} {w found : Walk} (hlisted : Listed cur m)
    (h : FindsConstants nearest (walkStep w cur) found) : FindsConstants (m :: nearest) w found := by
  cases hlisted with
  | ldi hmnemonic hoperands hscalar =>
    rw [walkStep_ldi hmnemonic hoperands hscalar] at h
    exact findsConstants_ldi h
  | mv hmnemonic hoperands =>
    rw [walkStep_mv hmnemonic hoperands] at h
    exact findsConstants_mv h

theorem walkBack_finds {nearest : List ListingInstruction} {code : List (Move String (BitVec 32))}
    (h : List.Forall₂ Listed nearest code) (steps : Nat) (w : Walk) :
    FindsConstants (code.take steps) w (walkBack steps nearest w) := by
  induction steps generalizing nearest code w with
  | zero => simp [walkBack, FindsConstants, leftByR0, lowConstant]
  | succ steps ih =>
    cases h with
    | nil => simp [walkBack, FindsConstants, leftByR0, lowConstant]
    | @cons cur m rest code hcur hrest =>
      rw [walkBack, List.take_succ_cons]
      by_cases hopen : w.mask = none ∨ w.idx = none
      · rw [if_pos hopen]
        exact findsConstants_step hcur (ih hrest (walkStep w cur))
      · rw [if_neg hopen]
        rw [not_or] at hopen
        exact findsConstants_of_found hopen.1 hopen.2 _

theorem lowConstant_eq_some_iff {src : Source String (BitVec 32)} {n : Nat} :
    lowConstant src = some n ↔ ∃ v, src = .value v ∧ lowHalf v = n := by
  cases src with
  | value v => simp [lowConstant]
  | register r => simp [lowConstant]

namespace StraightLine

variable (s : StraightLine) (maxBack : Nat)

theorem maskAndIdx_finds :
    FindsConstants (s.code.reverse.take maxBack) {} (maskAndIdx s.before maxBack) :=
  walkBack_finds (List.rel_reverse s.listed) maxBack {}

theorem mask_eq :
    (maskAndIdx s.before maxBack).mask =
      lowConstant (Move.trace (.register "r0") (s.code.reverse.take maxBack)) :=
  (s.maskAndIdx_finds maxBack).1

theorem idx_eq :
    (maskAndIdx s.before maxBack).idx =
      lowConstant (Move.trace (.register "r1")
        (leftByR0 "r0" true (s.code.reverse.take maxBack))) :=
  (s.maskAndIdx_finds maxBack).2

/-- The mask is always right: nothing is kept from the search for `r0`. -/
theorem mask_right {mask : Nat} (h : (maskAndIdx s.before maxBack).mask = some mask)
    (regs : String → BitVec 32) : mask = lowHalf (Move.run regs s.code "r0") := by
  rw [s.mask_eq, lowConstant_eq_some_iff] at h
  obtain ⟨v, htrace, rfl⟩ := h
  rw [Move.run_eq_eval_trace, Move.trace_eq_value_of_take htrace]
  rfl

/-- A register whose low half is always the same holds a constant. -/
theorem low_run_eq_iff {r : String} {n : Nat} :
    (∀ regs, n = lowHalf (Move.run regs s.code r)) ↔
      ∃ v, Move.trace (.register r) s.code.reverse = .value v ∧ lowHalf v = n := by
  simp only [Move.run_eq_eval_trace]
  cases htrace : Move.trace (.register r) s.code.reverse with
  | value v =>
    constructor
    · intro h
      exact ⟨v, rfl, (h fun _ => 0).symm⟩
    · intro h regs
      obtain ⟨_, hv, hlow⟩ := h
      rw [← hlow, ← Source.value.inj hv]
      rfl
  | register q =>
    constructor
    · intro h
      -- the register may hold two values of different low halves
      have hzero : n = lowHalf 0 := h fun _ => 0
      have hone : n = lowHalf 1 := h fun _ => 1
      rw [hzero] at hone
      exact absurd hone (by decide)
    · intro h
      obtain ⟨_, hv, _⟩ := h
      cases hv

end StraightLine

/-- What is reported is right exactly when a constant that `r1` is followed to over the
instructions left by the search for `r0` has the low half of the constant that it is
followed to over all instructions. -/
theorem reportsRight_iff (s : StraightLine) (maxBack : Nat) :
    s.ReportsRight maxBack ↔
      ∀ v, Move.trace (.register "r1") (leftByR0 "r0" true (s.code.reverse.take maxBack)) =
          .value v →
        ∃ v', Move.trace (.register "r1") s.code.reverse = .value v' ∧ lowHalf v' = lowHalf v := by
  simp only [← s.low_run_eq_iff]
  constructor
  · intro h v hv regs
    apply (h regs).2
    rw [s.idx_eq, lowConstant_eq_some_iff]
    exact ⟨v, hv, rfl⟩
  · intro h regs
    constructor
    · intro mask hmask
      exact s.mask_right maxBack hmask regs
    · intro idx hidx
      rw [s.idx_eq, lowConstant_eq_some_iff] at hidx
      obtain ⟨v, hv, rfl⟩ := hidx
      exact h v hv regs

/-! ### Where the two searches meet -/

/-- The instruction behind `near` writes the register that `r1` is followed to, and the search
for `r0` takes it: a move at any time, a constant while `r0` has none yet. -/
def Meets (r0 r1 : String) (sought : Bool) (near : List (Move String (BitVec 32))) :
    Move String (BitVec 32) → Prop
  | .load d _ => sought = true ∧ Move.trace (.register r0) near = .register d ∧
      Move.trace (.register r1) near = .register d
  | .copy d _ => Move.follow r0 near = d ∧ Move.trace (.register r1) near = .register d

instance (r0 r1 : String) (sought : Bool) (near : List (Move String (BitVec 32)))
    (m : Move String (BitVec 32)) : Decidable (Meets r0 r1 sought near m) := by
  cases m <;> exact inferInstanceAs (Decidable (_ ∧ _))

/-- No instruction is on both ways back. -/
def Apart (r0 r1 : String) (sought : Bool) (nearest : List (Move String (BitVec 32))) : Prop :=
  ∀ k < nearest.length, ∀ m ∈ nearest[k]?, ¬ Meets r0 r1 sought (nearest.take k) m

instance (r0 r1 : String) (sought : Bool) (nearest : List (Move String (BitVec 32))) :
    Decidable (Apart r0 r1 sought nearest) :=
  inferInstanceAs (Decidable (∀ k < nearest.length, ∀ m ∈ nearest[k]?, _))

section Apart

variable {r0 r1 : String} {sought : Bool} {m : Move String (BitVec 32)}
  {nearest : List (Move String (BitVec 32))}

theorem Apart.head (h : Apart r0 r1 sought (m :: nearest)) : ¬ Meets r0 r1 sought [] m :=
  h 0 (Nat.succ_pos _) m rfl

/-- The ways back from behind the first instruction. -/
theorem Apart.tail {r0' r1' : String} {sought' : Bool} (h : Apart r0 r1 sought (m :: nearest))
    (hfollow : Move.followStep r0 m = r0')
    (hopen : sought' = true → sought = true ∧ Move.back (.register r0) m = .register r0')
    (hback : Move.back (.register r1) m = .register r1') : Apart r0' r1' sought' nearest := by
  intro k hk m' hm' hmeet
  refine h (k + 1) (Nat.succ_lt_succ hk) m' (by rw [List.getElem?_cons_succ]; exact hm') ?_
  rw [List.take_succ_cons]
  cases m' with
  | load d v =>
    obtain ⟨hsought, hfirst, hsecond⟩ := hmeet
    obtain ⟨hsought, hfirst'⟩ := hopen hsought
    refine ⟨hsought, ?_, ?_⟩
    · rw [Move.trace_cons, hfirst', hfirst]
    · rw [Move.trace_cons, hback, hsecond]
  | copy d s =>
    refine ⟨?_, ?_⟩
    · rw [Move.follow_cons, hfollow, hmeet.1]
    · rw [Move.trace_cons, hback, hmeet.2]

/-- Where the searches stay apart, what `r0` leaves is enough to follow `r1`. -/
theorem trace_leftByR0 (h : Apart r0 r1 sought nearest) :
    Move.trace (.register r1) (leftByR0 r0 sought nearest) =
      Move.trace (.register r1) nearest := by
  induction nearest generalizing r0 r1 sought with
  | nil => rfl
  | cons m rest ih =>
    have hhead := h.head
    cases m with
    | load d v =>
      by_cases hr0 : d = r0 ∧ sought = true
      · obtain ⟨rfl, rfl⟩ := hr0
        have hne : d ≠ r1 := by
          rintro rfl
          exact hhead ⟨rfl, rfl, rfl⟩
        have hback : Move.back (.register r1) (.load d v) = .register r1 :=
          Move.back_load_of_ne hne v
        rw [leftByR0, if_pos ⟨rfl, rfl⟩, Move.trace_cons, hback]
        exact ih (h.tail rfl (fun hfalse => absurd hfalse (by decide)) hback)
      · rw [leftByR0, if_neg hr0, Move.trace_cons, Move.trace_cons]
        by_cases hr1 : d = r1
        · rw [hr1, Move.back_load_self, Move.trace_value, Move.trace_value]
        · have hback : Move.back (.register r1) (.load d v) = .register r1 :=
            Move.back_load_of_ne hr1 v
          rw [hback]
          refine ih (h.tail rfl (fun hsought => ⟨hsought, ?_⟩) hback)
          exact Move.back_load_of_ne (fun he => hr0 ⟨he, hsought⟩) v
    | copy d s =>
      by_cases hr0 : d = r0
      · subst hr0
        have hne : d ≠ r1 := by
          rintro rfl
          exact hhead ⟨rfl, rfl⟩
        have hback : Move.back (.register r1) (.copy d s) =
            (.register r1 : Source String (BitVec 32)) := Move.back_copy_of_ne hne s
        rw [leftByR0, if_pos rfl, Move.trace_cons, hback]
        exact ih (h.tail (Move.followStep_copy_self d s)
          (fun hsought => ⟨hsought, Move.back_copy_self d s⟩) hback)
      · have hfollow : Move.followStep r0 (.copy d s : Move String (BitVec 32)) = r0 :=
          Move.followStep_copy_of_ne hr0 s
        have hopen : Move.back (.register r0) (.copy d s) =
            (.register r0 : Source String (BitVec 32)) := Move.back_copy_of_ne hr0 s
        rw [leftByR0, if_neg hr0, Move.trace_cons, Move.trace_cons]
        by_cases hr1 : d = r1
        · subst hr1
          rw [Move.back_copy_self]
          exact ih (h.tail hfollow (fun hsought => ⟨hsought, hopen⟩) (Move.back_copy_self d s))
        · have hback : Move.back (.register r1) (.copy d s) =
              (.register r1 : Source String (BitVec 32)) := Move.back_copy_of_ne hr1 s
          rw [hback]
          exact ih (h.tail hfollow (fun hsought => ⟨hsought, hopen⟩) hback)

/-- While `r0` has no constant, it leaves the instructions further up to the register that it
is followed to. -/
theorem leftByR0_append {near far : List (Move String (BitVec 32))} {q : String}
    (h : Move.trace (.register r0) near = .register q) :
    leftByR0 r0 true (near ++ far) = leftByR0 r0 true near ++ leftByR0 q true far := by
  induction near generalizing r0 with
  | nil =>
    obtain rfl := Source.register.inj h
    rfl
  | cons m near ih =>
    rw [Move.trace_cons] at h
    cases m with
    | load d v =>
      by_cases hr0 : d = r0
      · rw [hr0, Move.back_load_self, Move.trace_value] at h
        cases h
      · rw [Move.back_load_of_ne hr0] at h
        have hd : ¬ (d = r0 ∧ true = true) := fun hd => hr0 hd.1
        rw [List.cons_append, leftByR0, if_neg hd, ih h, leftByR0, if_neg hd, List.cons_append]
    | copy d s =>
      by_cases hr0 : d = r0
      · rw [hr0, Move.back_copy_self] at h
        rw [List.cons_append, leftByR0, if_pos hr0, ih h, leftByR0, if_pos hr0]
      · rw [Move.back_copy_of_ne hr0] at h
        rw [List.cons_append, leftByR0, if_neg hr0, ih h, leftByR0, if_neg hr0, List.cons_append]

/-- With its constant found, the search for `r0` takes only moves to its register. -/
theorem leftByR0_of_no_copy {q : String} (h : ∀ s, .copy q s ∉ nearest) :
    leftByR0 q false nearest = nearest := by
  induction nearest with
  | nil => rfl
  | cons m rest ih =>
    have hrest := ih fun s hs => h s (List.mem_cons_of_mem m hs)
    cases m with
    | load d v => rw [leftByR0, if_neg (by simp), hrest]
    | copy d s =>
      have hd : d ≠ q := by
        rintro rfl
        exact h s List.mem_cons_self
      rw [leftByR0, if_neg hd, hrest]

end Apart

/-- What is reported is right when the ways back of `r0` and `r1` stay apart. Where they meet
first in a constant, and nothing moves into its register further up, it is right exactly if
the next constant of that register has the same low half. -/
theorem reportsRight_of_apart (s : StraightLine) (maxBack : Nat) :
    (Apart "r0" "r1" true (s.code.reverse.take maxBack) → s.ReportsRight maxBack) ∧
    ∀ near q v far, s.code.reverse.take maxBack = near ++ .load q v :: far →
      Apart "r0" "r1" true near → Meets "r0" "r1" true near (.load q v) →
      (∀ source, .copy q source ∉ far) →
      (s.ReportsRight maxBack ↔ ∀ between v' further, far = between ++ .load q v' :: further →
        (∀ m ∈ between, m.dest ≠ q) → lowHalf v' = lowHalf v) := by
  constructor
  · intro hapart
    refine (reportsRight_iff s maxBack).mpr fun v hv => ?_
    rw [trace_leftByR0 hapart] at hv
    exact ⟨v, Move.trace_eq_value_of_take hv, rfl⟩
  · intro near q v far hsplit hapart hmeet hcopy
    obtain ⟨_, hfirst, hsecond⟩ := hmeet
    have htrue : Move.trace (.register "r1") s.code.reverse = .value v := by
      apply Move.trace_eq_value_of_take
      rw [hsplit, Move.trace_append, hsecond, Move.trace_cons, Move.back_load_self,
        Move.trace_value]
    have hleft : Move.trace (.register "r1") (leftByR0 "r0" true (s.code.reverse.take maxBack)) =
        Move.trace (.register q) far := by
      rw [hsplit, leftByR0_append hfirst, Move.trace_append, trace_leftByR0 hapart, hsecond,
        leftByR0, if_pos ⟨rfl, rfl⟩, leftByR0_of_no_copy hcopy]
    rw [reportsRight_iff, hleft]
    constructor
    · intro h between v' further hfar hbetween
      obtain ⟨w, hw, hlow⟩ :=
        h v' ((Move.trace_eq_value_iff hcopy).mpr ⟨between, further, hfar, hbetween⟩)
      rw [htrue] at hw
      rw [← hlow, ← Source.value.inj hw]
    · intro h v' hv'
      obtain ⟨between, further, hfar, hbetween⟩ := (Move.trace_eq_value_iff hcopy).mp hv'
      exact ⟨v, htrue, (h between v' further hfar hbetween).symm⟩

/-- `ldi r0,#2`, `ldi r0,#1`, `mv r1,r0` and then the call. -/
def sharedLoad : StraightLine where
  before := [⟨"ldi", ["r0", "#0x2"], some 2⟩, ⟨"ldi", ["r0", "#0x1"], some 1⟩,
    ⟨"mv", ["r1", "r0"], none⟩]
  code := [.load "r0" (BitVec.ofInt 32 2), .load "r0" (BitVec.ofInt 32 1), .copy "r1" "r0"]
  listed := .cons (.ldi (by decide +kernel) rfl rfl) (.cons (.ldi (by decide +kernel) rfl rfl)
    (.cons (.mv (by decide +kernel) rfl) .nil))

/-- The second load serves `r0` only, so the first one is reported for `r1`. -/
theorem sharedLoad_not_right : ¬ sharedLoad.ReportsRight 8 := by
  intro h
  have hidx : (maskAndIdx sharedLoad.before 8).idx = some 2 := by decide +kernel
  have hone : lowHalf (Move.run (fun _ => 0) sharedLoad.code "r1") = 1 := by decide +kernel
  have htwo := (h fun _ => 0).2 2 hidx
  rw [hone] at htwo
  cases htwo

/-- `ldi r0,#4`, `ldi r5,#0x20010`, `mv r1,r5` and then the call. -/
def ownLoads : StraightLine where
  before := [⟨"ldi", ["r0", "#0x4"], some 4⟩, ⟨"ldi", ["r5", "#0x20010"], some 0x20010⟩,
    ⟨"mv", ["r1", "r5"], none⟩]
  code := [.load "r0" (BitVec.ofInt 32 4), .load "r5" (BitVec.ofInt 32 0x20010), .copy "r1" "r5"]
  listed := .cons (.ldi (by decide +kernel) rfl rfl) (.cons (.ldi (by decide +kernel) rfl rfl)
    (.cons (.mv (by decide +kernel) rfl) .nil))

theorem reportsRight_of_apart_sample :
    ownLoads.ReportsRight 8 ∧
      (sharedLoad.ReportsRight 8 ↔ ∀ between v' further,
        [Move.load "r0" (BitVec.ofInt 32 2)] = between ++ .load "r0" v' :: further →
          (∀ m ∈ between, m.dest ≠ "r0") → lowHalf v' = lowHalf (BitVec.ofInt 32 1)) := by
  refine ⟨(reportsRight_of_apart ownLoads 8).1 (by decide +kernel), ?_⟩
  refine (reportsRight_of_apart sharedLoad 8).2 [.copy "r1" "r0"] "r0" _ _ rfl ?_ ?_ ?_
  · decide +kernel
  · decide +kernel
  · simp

end RomAnalyzer.Ghidra
