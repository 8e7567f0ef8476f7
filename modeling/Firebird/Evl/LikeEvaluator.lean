import Firebird.Evl.PreKmp

/-! # The LIKE evaluator

The pattern is compiled to items, and a set of branches walks over them while the chunks of the subject come in. A
pointer into an array is the list of the elements from there on. -/

namespace Firebird.Evl

variable {α : Type}

inductive PatternItemType
  | piNone
  | piSearch
  | piSkipFixed
  | piDirectMatch
  | piEscapedString
  | piSkipMore
  deriving DecidableEq

inductive MatchType
  | none
  | fixed
  | any
  deriving DecidableEq

structure PatternItem (α : Type) where
  type : PatternItemType := .piNone
  length : Nat := 0
  data : List α := []
  kmpNext : List Int := []
  matchAny : Bool := false

structure BranchItem (α : Type) where
  pattern : List (PatternItem α)
  offset : Int := 0

structure LikeEvaluator (α : Type) where
  patternItems : List (PatternItem α)
  branches : List (BranchItem α)
  matchType : MatchType

inductive Error
  | escapeInvalid
  | outOfRange

structure Specials (α : Type) where
  escapeChar : α
  useEscape : Bool
  sqlMatchAny : α
  sqlMatchOne : α

section Constructor

variable [DecidableEq α] [Zero α]

namespace Specials

variable (p : Specials α) (c : α)

def isEscape : Bool := p.useEscape && c == p.escapeChar

def isMatchAny : Bool := p.sqlMatchAny != 0 && c == p.sqlMatchAny

def isMatchOne : Bool := p.sqlMatchOne != 0 && c == p.sqlMatchOne

end Specials

/-- `patternItems` in the first pass: `item` is its last element. -/
structure Parsing (α : Type) where
  before : List (PatternItem α)
  item : PatternItem α

namespace Parsing

def items (s : Parsing α) : List (PatternItem α) := s.before ++ [s.item]

def grow (s : Parsing α) : Parsing α := { before := s.before ++ [s.item], item := {} }

def setItem (s : Parsing α) (item : PatternItem α) : Parsing α := { s with item }

def beginString (s : Parsing α) (type : PatternItemType) (data : List α) : Parsing α :=
  s.setItem { s.item with type, data, length := 1 }

def escapedSymbol (s : Parsing α) (data : List α) : Parsing α :=
  match s.item.type with
  | .piSkipFixed | .piSkipMore => s.grow.beginString .piEscapedString data
  | .piNone => s.beginString .piEscapedString data
  | .piSearch => s.setItem { s.item with type := .piEscapedString, length := s.item.length + 1 }
  | .piEscapedString => s.setItem { s.item with length := s.item.length + 1 }
  | .piDirectMatch => s

def percentSign (s : Parsing α) : Parsing α :=
  match s.item.type with
  | .piSearch | .piEscapedString => s.grow.setItem { s.grow.item with type := .piSkipMore }
  | .piSkipFixed | .piNone => s.setItem { s.item with type := .piSkipMore }
  | .piSkipMore | .piDirectMatch => s

def underscore (s : Parsing α) : Parsing α :=
  match s.item.type with
  | .piSearch | .piEscapedString => s.grow.setItem { s.grow.item with type := .piSkipFixed, length := 1 }
  | .piNone => s.setItem { s.item with type := .piSkipFixed, length := 1 }
  | .piSkipFixed | .piSkipMore => s.setItem { s.item with length := s.item.length + 1 }
  | .piDirectMatch => s

def anythingElse (s : Parsing α) (data : List α) : Parsing α :=
  match s.item.type with
  | .piSkipFixed | .piSkipMore => s.grow.beginString .piSearch data
  | .piNone => s.beginString .piSearch data
  | .piSearch | .piEscapedString => s.setItem { s.item with length := s.item.length + 1 }
  | .piDirectMatch => s

end Parsing

/-- Parse pattern: the first argument is what is left of it. -/
def parsePattern (p : Specials α) : List α → Parsing α → Except Error (Parsing α)
  | [], s => .ok s
  | c :: rest, s =>
    if p.isEscape c then
      match rest with
      | d :: rest =>
        if d = p.escapeChar ∨ p.isMatchAny d ∨ p.isMatchOne d then
          parsePattern p rest (s.escapedSymbol (c :: d :: rest))
        else
          .error .escapeInvalid
      | [] => .error .escapeInvalid
    else if p.isMatchAny c then
      parsePattern p rest s.percentSign
    else if p.isMatchOne c then
      parsePattern p rest s.underscore
    else
      parsePattern p rest (s.anythingElse (c :: rest))

def unescape (p : Specials α) : Nat → List α → Option (List α)
  | 0, _ => some []
  | length + 1, curPos => do
    match if p.isEscape (← curPos.head?) then curPos.tail else curPos with
    | [] => none
    | c :: curPos => return c :: (← unescape p length curPos)

def compileString (directMatch : Bool) (item : PatternItem α) : Option (PatternItem α) :=
  if directMatch then
    some { item with type := .piDirectMatch }
  else do
    return { item with kmpNext := ← preKmp item.data item.length }

/-- Compilation and optimization: `done` holds the items before the current one, the nearest first. -/
def compileItems (p : Specials α) (done : List (PatternItem α)) (directMatch : Bool) :
    List (PatternItem α) → Option (List (PatternItem α))
  | [] => some done.reverse
  | item :: rest =>
    match item.type with
    | .piEscapedString => do
      let data ← unescape p item.length item.data
      compileItems p ((← compileString directMatch { item with type := .piSearch, data }) :: done) true rest
    | .piSearch => do
      compileItems p ((← compileString directMatch item) :: done) true rest
    | .piSkipMore =>
      if item.length ≠ 0 then
        compileItems p ({ item with type := .piSkipFixed, matchAny := true } :: done) false rest
      else
        match done with
        | previous :: done => compileItems p ({ previous with matchAny := true } :: done) false rest
        | [] =>
          if rest ≠ [] then
            compileItems p [] false rest
          else
            -- Our pattern is single %
            compileItems p [{ item with type := .piNone, matchAny := true }] false rest
    | .piNone | .piSkipFixed | .piDirectMatch => compileItems p (item :: done) directMatch rest

def reset (patternItems : List (PatternItem α)) : Option (LikeEvaluator α) :=
  match patternItems with
  | [] => none
  | item :: _ =>
    if item.type = .piNone then
      some { patternItems, branches := [], matchType := if item.matchAny then .any else .fixed }
    else
      some { patternItems, branches := [{ pattern := patternItems }], matchType := .none }

/-- The constructor. An access outside of an array is an error as well. -/
def create (p : Specials α) (pattern : List α) : Except Error (LikeEvaluator α) :=
  match parsePattern p pattern { before := [], item := {} } with
  | .error e => .error e
  | .ok s =>
    match (compileItems p [] true s.items).bind reset with
    | some evaluator => .ok evaluator
    | none => .error .outOfRange

end Constructor

inductive BranchStep (α : Type)
  | dropped
  /-- The end of the pattern is reached, and the branch removed. -/
  | finished
  | kept (branch : BranchItem α)
  /-- The end of the pattern is reached, and the search goes on. -/
  | found (branch : BranchItem α)
  | split (branch inserted : BranchItem α)
  /-- A match-any is passed: this branch is the only one from here on. -/
  | alone (branch : BranchItem α)
  | matched

def advance (item : PatternItem α) (next : List (PatternItem α)) (branch : BranchItem α) : BranchStep α :=
  let offset := branch.offset + 1
  if offset ≥ item.length then
    match item.matchAny, next with
    | true, [] => .matched
    | true, _ :: _ => .alone { pattern := next }
    | false, [] => .finished
    | false, _ :: _ => .kept { pattern := next }
  else
    .kept { branch with offset }

def stepBranch [DecidableEq α] (c : α) (branch : BranchItem α) : Option (BranchStep α) :=
  match branch.pattern with
  | [] => none
  | item :: next =>
    match item.type with
    | .piDirectMatch => do
      if c ≠ (← readAt item.data branch.offset) then
        return .dropped
      else
        return advance item next branch
    | .piSkipFixed => some (advance item next branch)
    | .piSearch => do
      let offset := (← fallBack item.data item.kmpNext c (item.kmpNext.length + 1) branch.offset) + 1
      if offset ≥ item.length then
        match next with
        | [] =>
          if item.matchAny then
            return .matched
          else
            return .found { branch with offset := ← readAt item.kmpNext offset }
        | nextPattern :: _ =>
          if nextPattern.type = .piSearch then
            return .kept { pattern := next }
          else
            return .split { branch with offset := ← readAt item.kmpNext offset } { pattern := next }
      else
        return .kept { branch with offset }
    | .piNone | .piEscapedString | .piSkipMore => some (.kept branch)

inductive CharStep (α : Type)
  | more (branches : List (BranchItem α)) (finishCandidate : Int)
  | return (branches : List (BranchItem α)) (matchType : MatchType) (more : Bool)

/-- The loop over the branches for the character `c` at `dataPos`: `done` holds those below `branch_number`. -/
def eachBranch [DecidableEq α] (c : α) (dataPos dataLen : Nat) (matchType : MatchType) :
    List (BranchItem α) → List (BranchItem α) → Int → Option (CharStep α)
  | [], done, finishCandidate => some (.more done finishCandidate)
  | branch :: rest, done, finishCandidate =>
    match stepBranch c branch with
    | none => none
    | some .dropped =>
      if done ++ rest = [] then
        some (.return [] matchType false)
      else
        eachBranch c dataPos dataLen matchType rest done finishCandidate
    | some .finished =>
      if done ++ rest = [] then
        if dataPos + 1 = dataLen then
          some (.return [] .fixed true)
        else
          some (.return [] matchType false)
      else
        eachBranch c dataPos dataLen matchType rest done dataPos
    | some (.kept branch) => eachBranch c dataPos dataLen matchType rest (done ++ [branch]) finishCandidate
    | some (.found branch) => eachBranch c dataPos dataLen matchType rest (done ++ [branch]) dataPos
    | some (.split branch inserted) =>
      eachBranch c dataPos dataLen matchType rest (done ++ [branch, inserted]) finishCandidate
    | some (.alone branch) => some (.more [branch] finishCandidate)
    | some .matched => some (.return [] .any false)

def eachChar [DecidableEq α] (dataLen : Nat) :
    List α → Nat → List (BranchItem α) → MatchType → Int → Option (List (BranchItem α) × MatchType × Bool)
  | [], _, branches, matchType, finishCandidate =>
    some (branches, if finishCandidate = dataLen - 1 then .fixed else matchType, true)
  | c :: data, dataPos, branches, matchType, finishCandidate => do
    match ← eachBranch c dataPos dataLen matchType branches [] finishCandidate with
    | .more branches finishCandidate => eachChar dataLen data (dataPos + 1) branches matchType finishCandidate
    | .return branches matchType more => return (branches, matchType, more)

namespace LikeEvaluator

def getResult (e : LikeEvaluator α) : Bool := e.matchType != .none

/-- `true` if more data can change the result of evaluation. -/
def processNextChunk [DecidableEq α] (e : LikeEvaluator α) (data : List α) : Option (LikeEvaluator α × Bool) :=
  if data = [] then
    some (e, e.branches ≠ [] || e.matchType = .fixed)
  else
    let matchType := if e.matchType = .fixed then .none else e.matchType
    if e.branches = [] then
      some ({ e with matchType }, false)
    else do
      let (branches, matchType, more) ← eachChar data.length data 0 e.branches matchType (-1)
      return ({ e with branches, matchType }, more)

def feed [DecidableEq α] (e : LikeEvaluator α) : List (List α) → Option (LikeEvaluator α × Bool)
  | [] => some (e, true)
  | data :: chunks => do
    match ← e.processNextChunk data with
    | (e, true) => e.feed chunks
    | (e, false) => return (e, false)

end LikeEvaluator

end Firebird.Evl
