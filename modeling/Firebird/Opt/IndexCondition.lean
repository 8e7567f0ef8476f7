import Mathlib

/-! # The condition of a partial index

The index is used when the booleans of the query imply its condition, which is found out by counting. -/

namespace Firebird.Opt

open List

/-- The operators of comparative predicates, with the third argument of those that have one. -/
inductive BlrOp (V : Type)
  | eql | equiv | gtr | geq | lss | leq | neq | containing | starting | matching
  | between (arg3 : V)
  | like (arg3 : Option V)
  | similar (arg3 : Option V)
  | matching2 (arg3 : V)
  deriving DecidableEq

def BlrOp.arg3 {V : Type} : BlrOp V → Option V
  | .between arg3 | .matching2 arg3 => some arg3
  | .like arg3 | .similar arg3 => arg3
  | _ => none

inductive BoolExpr (V T : Type)
  | and (arg1 arg2 : BoolExpr V T)
  | or (arg1 arg2 : BoolExpr V T)
  | not (arg : BoolExpr V T)
  | missing (arg : V)
  | comparative (blrOp : BlrOp V) (arg1 arg2 : V)
  | other (node : T)
  deriving DecidableEq

/-- Value expressions and other predicates, with their values for a record. -/
structure Exprs (V T D R : Type) where
  value : R → V → Option D
  execute : R → T → Option Bool
  compare : D → D → Int
  stringBoolean : BlrOp V → D → D → Option D → Option Bool
  streams : V → List Nat
  nodeStreams : T → List Nat
  sameAs : V → V → Bool
  sameAsBool : BoolExpr V T → BoolExpr V T → Bool

variable {V T D R : Type}

namespace Exprs

section Execute

variable (x : Exprs V T D R) (record : R)

def executeComparative (blrOp : BlrOp V) (arg1 arg2 : V) : Option Bool :=
  match x.value record arg1, x.value record arg2, blrOp with
  | none, none, .equiv => some true
  | none, some _, .equiv | some _, none, .equiv => some false
  | some desc1, none, .between arg3 =>
    (x.value record arg3).bind fun desc3 => if x.compare desc1 desc3 ≤ 0 then none else some false
  | none, _, _ | _, none, _ => none
  | some desc1, some desc2, .eql | some desc1, some desc2, .equiv => some (x.compare desc1 desc2 = 0)
  | some desc1, some desc2, .gtr => some (x.compare desc1 desc2 > 0)
  | some desc1, some desc2, .geq => some (x.compare desc1 desc2 ≥ 0)
  | some desc1, some desc2, .lss => some (x.compare desc1 desc2 < 0)
  | some desc1, some desc2, .leq => some (x.compare desc1 desc2 ≤ 0)
  | some desc1, some desc2, .neq => some (x.compare desc1 desc2 ≠ 0)
  | some desc1, some desc2, .between arg3 =>
    if x.compare desc1 desc2 < 0 then some false else (x.value record arg3).map fun desc3 => x.compare desc1 desc3 ≤ 0
  | some desc1, some desc2, blrOp =>
    match blrOp.arg3 with
    | none => x.stringBoolean blrOp desc1 desc2 none
    | some arg3 => (x.value record arg3).bind fun desc3 => x.stringBoolean blrOp desc1 desc2 (some desc3)

def executeBool : BoolExpr V T → Option Bool
  | .and arg1 arg2 =>
    match executeBool arg1 with
    | some value1 => if value1 then executeBool arg2 else some false
    | none => if executeBool arg2 = some false then some false else none
  | .or arg1 arg2 =>
    match executeBool arg1 with
    | some value1 => if value1 then some true else executeBool arg2
    | none => if executeBool arg2 = some true then some true else none
  | .not arg => (executeBool arg).map (!·)
  | .missing arg => some (x.value record arg).isNone
  | .comparative blrOp arg1 arg2 => x.executeComparative record blrOp arg1 arg2
  | .other node => x.execute record node

end Execute

def collectStreams (x : Exprs V T D R) : BoolExpr V T → List Nat
  | .and arg1 arg2 | .or arg1 arg2 => collectStreams x arg1 ++ collectStreams x arg2
  | .not arg => collectStreams x arg
  | .missing arg => x.streams arg
  | .comparative blrOp arg1 arg2 => x.streams arg1 ++ x.streams arg2 ++ (blrOp.arg3.map x.streams).getD []
  | .other node => x.nodeStreams node

/-- With `only`: the stream is the only one. -/
def containsStream (x : Exprs V T D R) (stream : Nat) (only : Bool) (boolean : BoolExpr V T) : Bool :=
  (x.collectStreams boolean).contains stream && (!only || (x.collectStreams boolean).all (· == stream))

variable (x : Exprs V T D R) (stream : Nat)

def matchSubset (boolean sub : BoolExpr V T) : Bool :=
  x.sameAsBool boolean sub && x.containsStream stream true sub ||
    match boolean with
    | .or arg1 arg2 => matchSubset arg1 sub || matchSubset arg2 sub ||
      match sub with
      | .or sub1 sub2 => matchSubset (.or arg1 arg2) sub1 && matchSubset (.or arg1 arg2) sub2
      | _ => false
    | _ => false
termination_by sizeOf boolean + sizeOf sub

/-- A comparative predicate that mentions the value. -/
def mentions (arg : V) : BoolExpr V T → Bool
  | .comparative blrOp arg1 arg2 =>
    let same v := x.sameAs v arg && (x.streams v).contains stream
    !(blrOp matches .equiv) && (same arg1 || same arg2 || blrOp.arg3.any same)
  | _ => false

/-- The conjuncts of a transformed boolean. -/
def decomposeBoolean : BoolExpr V T → List (BoolExpr V T)
  | .and arg1 arg2 => decomposeBoolean arg1 ++ decomposeBoolean arg2
  | .comparative (.between arg3) arg1 arg2 => [.comparative .geq arg1 arg2, .comparative .leq arg1 arg3]
  | boolNode => [boolNode]

variable (conjuncts : List (BoolExpr V T))

def findSubset (boolean : BoolExpr V T) : Option (BoolExpr V T) :=
  conjuncts.find? fun sub => x.containsStream stream false sub && x.matchSubset stream boolean sub

def findNotNull : BoolExpr V T → Option (BoolExpr V T)
  | .not (.missing arg) => conjuncts.find? fun sub => x.containsStream stream false sub && x.mentions stream arg sub
  | _ => none

/-- What one conjunct of the index adds to `matches`. -/
def addMatches (boolean : BoolExpr V T) : List (BoolExpr V T) :=
  (x.findSubset stream conjuncts boolean).toList ++ (x.findNotNull stream conjuncts boolean).toList

/-- The answer, and `matches`. -/
def checkIndexCondition (condition : BoolExpr V T) : Bool × List (BoolExpr V T) :=
  if !x.containsStream 0 true condition then
    (false, [])
  else
    let idxConjuncts := decomposeBoolean condition
    let found := idxConjuncts.reverse.flatMap (x.addMatches stream conjuncts)
    (found.length ≥ idxConjuncts.length, found)

def matchedTwice (boolean : BoolExpr V T) : Bool :=
  (x.findSubset stream conjuncts boolean).isSome && (x.findNotNull stream conjuncts boolean).isSome

def unmatched (boolean : BoolExpr V T) : Bool :=
  (x.findSubset stream conjuncts boolean).isNone && (x.findNotNull stream conjuncts boolean).isNone

variable {x stream conjuncts} {record : R} {boolean sub condition : BoolExpr V T} {arg : V}

/-! ### What is true for a record -/

theorem executeBool_and {arg1 arg2 : BoolExpr V T} :
    x.executeBool record (.and arg1 arg2) = some true ↔
      x.executeBool record arg1 = some true ∧ x.executeBool record arg2 = some true := by
  rw [executeBool]
  cases x.executeBool record arg1 with
  | none => simp
  | some value1 => cases value1 <;> simp

theorem executeBool_or {arg1 arg2 : BoolExpr V T} :
    x.executeBool record (.or arg1 arg2) = some true ↔
      x.executeBool record arg1 = some true ∨ x.executeBool record arg2 = some true := by
  rw [executeBool]
  cases x.executeBool record arg1 with
  | none => simp
  | some value1 => cases value1 <;> simp

/-- Only expressions with equal values are the same. -/
structure SameValues (x : Exprs V T D R) : Prop where
  bool : ∀ a b, x.sameAsBool a b = true → ∀ record, x.executeBool record a = x.executeBool record b
  value : ∀ a b, x.sameAs a b = true → ∀ record, x.value record a = x.value record b

/-- Except for equivalence, a comparison with a null is not true. -/
theorem executeComparative_true {blrOp : BlrOp V} {arg1 arg2 : V}
    (h : x.executeComparative record blrOp arg1 arg2 = some true) (hne : blrOp ≠ .equiv) :
    x.value record arg1 ≠ none ∧ x.value record arg2 ≠ none ∧ ∀ arg3 ∈ blrOp.arg3, x.value record arg3 ≠ none := by
  unfold executeComparative at h
  cases h1 : x.value record arg1 with
  | none => cases h2 : x.value record arg2 <;> cases blrOp <;> simp_all
  | some desc1 =>
    cases h2 : x.value record arg2 with
    | none => cases blrOp <;> simp_all [Option.bind_eq_some_iff]
    | some desc2 =>
      refine ⟨nofun, nofun, fun arg3 harg3 hnull => ?_⟩
      cases blrOp <;> simp_all [BlrOp.arg3]

theorem decomposeBoolean_sound (h : ∀ b ∈ decomposeBoolean boolean, x.executeBool record b = some true) :
    x.executeBool record boolean = some true := by
  induction boolean using decomposeBoolean.induct with
  | case1 arg1 arg2 ih1 ih2 =>
    rw [decomposeBoolean, forall_mem_append] at h
    exact executeBool_and.mpr ⟨ih1 h.1, ih2 h.2⟩
  | case2 arg3 arg1 arg2 =>
    obtain ⟨hgeq, hleq⟩ : x.executeComparative record .geq arg1 arg2 = some true ∧
        x.executeComparative record .leq arg1 arg3 = some true := by
      simpa [decomposeBoolean, executeBool] using h
    show x.executeComparative record (.between arg3) arg1 arg2 = some true
    obtain ⟨h1, h2, -⟩ := executeComparative_true hgeq nofun
    obtain ⟨-, h3, -⟩ := executeComparative_true hleq nofun
    obtain ⟨desc1, h1⟩ := Option.ne_none_iff_exists'.mp h1
    obtain ⟨desc2, h2⟩ := Option.ne_none_iff_exists'.mp h2
    obtain ⟨desc3, h3⟩ := Option.ne_none_iff_exists'.mp h3
    simp_all [executeComparative]
  | case3 boolean hand hbetween => simpa [decomposeBoolean, hand, hbetween] using h

theorem matchSubset_sound (hsame : x.SameValues) (h : x.matchSubset stream boolean sub = true)
    (htrue : x.executeBool record sub = some true) : x.executeBool record boolean = some true := by
  induction boolean, sub using matchSubset.induct with
  | case1 boolean sub ih =>
    unfold matchSubset at h
    rw [Bool.or_eq_true, Bool.and_eq_true] at h
    rcases h with h | h
    · rw [hsame.bool boolean sub h.1]
      exact htrue
    · split at h
      · obtain ⟨ih1, ih2, ihsubs⟩ := ih
        rw [Bool.or_eq_true, Bool.or_eq_true] at h
        rcases h with (h | h) | h
        · exact executeBool_or.mpr (.inl (ih1 h htrue))
        · exact executeBool_or.mpr (.inr (ih2 h htrue))
        · split at h
          · rw [Bool.and_eq_true] at h
            rcases executeBool_or.mp htrue with hsub | hsub
            · exact ihsubs.1 h.1 hsub
            · exact ihsubs.2 h.2 hsub
          · cases h
      · cases h

theorem mentions_sound (hsame : x.SameValues) (h : x.mentions stream arg sub = true)
    (htrue : x.executeBool record sub = some true) : x.executeBool record (.not (.missing arg)) = some true := by
  cases sub with
  | comparative blrOp arg1 arg2 =>
    have hvalue : ∀ v, x.sameAs v arg = true ∧ (x.streams v).contains stream = true → x.value record v ≠ none →
        x.executeBool record (.not (.missing arg)) = some true := fun v hv hnull => by
      rw [hsame.value v arg hv.1] at hnull
      simpa [executeBool, Option.isSome_iff_ne_none] using hnull
    simp only [mentions, Bool.and_eq_true, Bool.or_eq_true, Option.any_eq_true] at h
    obtain ⟨hne, hmentions⟩ := h
    obtain ⟨h1, h2, h3⟩ := executeComparative_true htrue (by rintro rfl; cases hne)
    rcases hmentions with (hv | hv) | ⟨arg3, harg3, hv⟩
    · exact hvalue arg1 hv h1
    · exact hvalue arg2 hv h2
    · exact hvalue arg3 hv (h3 arg3 harg3)
  | _ => cases h

/-- Each conjunct is counted once, but for those that are counted twice or not at all. -/
theorem found_length (idxConjuncts : List (BoolExpr V T)) :
    (idxConjuncts.flatMap (x.addMatches stream conjuncts)).length + idxConjuncts.countP (x.unmatched stream conjuncts) =
      idxConjuncts.length + idxConjuncts.countP (x.matchedTwice stream conjuncts) := by
  induction idxConjuncts with
  | nil => rfl
  | cons boolean idxConjuncts ih =>
    have hone : (x.addMatches stream conjuncts boolean).length +
        (if x.unmatched stream conjuncts boolean then 1 else 0) =
        1 + if x.matchedTwice stream conjuncts boolean then 1 else 0 := by
      unfold addMatches unmatched matchedTwice
      cases x.findSubset stream conjuncts boolean <;> cases x.findNotNull stream conjuncts boolean <;> rfl
    simp only [flatMap_cons, length_append, countP_cons, length_cons]
    omega

theorem checkIndexCondition_iff : (x.checkIndexCondition stream conjuncts condition).1 = true ↔
    x.containsStream 0 true condition = true ∧ (decomposeBoolean condition).countP (x.unmatched stream conjuncts) ≤
      (decomposeBoolean condition).countP (x.matchedTwice stream conjuncts) := by
  have hlength := @found_length _ _ _ _ x stream conjuncts (decomposeBoolean condition).reverse
  simp only [countP_reverse, length_reverse] at hlength
  unfold checkIndexCondition
  cases x.containsStream 0 true condition with
  | false => simp
  | true =>
    simp only [Bool.not_true, Bool.false_eq_true, if_false, decide_eq_true_eq, true_and]
    omega

/-- Where conjuncts are counted twice, there are fewer of them than of those not matched at all. -/
def Paired (x : Exprs V T D R) (stream : Nat) (conjuncts : List (BoolExpr V T)) (condition : BoolExpr V T) : Prop :=
  x.containsStream 0 true condition = true →
    (decomposeBoolean condition).countP (x.unmatched stream conjuncts) = 0 ∨
      (decomposeBoolean condition).countP (x.matchedTwice stream conjuncts) <
        (decomposeBoolean condition).countP (x.unmatched stream conjuncts)

theorem paired_iff : x.Paired stream conjuncts condition ↔
    ((x.checkIndexCondition stream conjuncts condition).1 = true →
    ∀ boolean ∈ decomposeBoolean condition, x.unmatched stream conjuncts boolean = false) := by
  have hzero : (decomposeBoolean condition).countP (x.unmatched stream conjuncts) = 0 ↔
      ∀ boolean ∈ decomposeBoolean condition, x.unmatched stream conjuncts boolean = false := by
    simp [countP_eq_zero]
  rw [Paired, checkIndexCondition_iff, ← hzero]
  refine ⟨fun h hcheck => ?_, fun h hstream => ?_⟩
  · have := h hcheck.1
    omega
  · have := fun hle => h ⟨hstream, hle⟩
    omega

theorem matched_sound (hsame : x.SameValues) (hmatched : x.unmatched stream conjuncts boolean = false)
    (htrue : ∀ b ∈ conjuncts, x.executeBool record b = some true) : x.executeBool record boolean = some true := by
  rw [unmatched, Bool.and_eq_false_iff] at hmatched
  simp only [Option.isNone_eq_false_iff, Option.isSome_iff_exists] at hmatched
  rcases hmatched with ⟨sub, hsub⟩ | ⟨sub, hsub⟩
  · have hp := find?_some hsub
    rw [Bool.and_eq_true] at hp
    exact matchSubset_sound hsame hp.2 (htrue sub (mem_of_find?_eq_some hsub))
  · unfold findNotNull at hsub
    split at hsub
    · have hp := find?_some hsub
      rw [Bool.and_eq_true] at hp
      exact mentions_sound hsame hp.2 (htrue sub (mem_of_find?_eq_some hsub))
    · cases hsub

/-- Paired, the count vouches for each conjunct of the index on its own, and the index misses no record of the query. -/
theorem checkIndexCondition_sound (x : Exprs V T D R) (stream : Nat) (conjuncts : List (BoolExpr V T))
    (condition : BoolExpr V T) (hsame : x.SameValues) :
    (((x.checkIndexCondition stream conjuncts condition).1 = true →
        ∀ boolean ∈ decomposeBoolean condition, x.unmatched stream conjuncts boolean = false) ↔
      x.Paired stream conjuncts condition) ∧
    (x.Paired stream conjuncts condition → (x.checkIndexCondition stream conjuncts condition).1 = true →
      ∀ record, (∀ b ∈ conjuncts, x.executeBool record b = some true) → x.executeBool record condition = some true) :=
  ⟨paired_iff.symm, fun hpaired hcheck _ htrue => decomposeBoolean_sound fun boolean hboolean =>
    matched_sound hsame (paired_iff.mp hpaired hcheck boolean hboolean) htrue⟩

end Exprs

/-! ### A table with two fields -/

inductive Value
  | field (id : Nat)
  | literal (n : Int)
  deriving DecidableEq

/-- A record gives each field its value. -/
def fields : Exprs Value Empty Int (Nat → Option Int) where
  value record
    | .field id => record id
    | .literal n => some n
  execute _ node := nomatch node
  compare a b := a - b
  stringBoolean _ _ _ _ := none
  streams
    | .field _ => [0]
    | .literal _ => []
  nodeStreams node := nomatch node
  sameAs a b := a = b
  sameAsBool a b := a = b

def notNull (id : Nat) : BoolExpr Value Empty := .not (.missing (.field id))

def isFive (id : Nat) : BoolExpr Value Empty := .comparative .eql (.field id) (.literal 5)

def between (id : Nat) (low high : Int) : BoolExpr Value Empty := .comparative (.between (.literal high))
    (.field id) (.literal low)

/-- `A IS NOT NULL AND (B = 5 OR A = 5) AND B BETWEEN 1 AND 9` -/
def partialCondition : BoolExpr Value Empty := .and (notNull 0) (.and (.or (isFive 1) (isFive 0)) (between 1 1 9))

/-- `A = 5 AND B >= 1 AND B <= 9` -/
def queryConjuncts : List (BoolExpr Value Empty) := isFive 0 :: Exprs.decomposeBoolean (between 1 1 9)

theorem queryConjuncts_suffice :
    fields.executeBool (fun id => if id = 0 then some 5 else some 3) partialCondition = some true :=
  (Exprs.checkIndexCondition_sound fields 0 queryConjuncts partialCondition ⟨fun _ _ h _ => by rw [of_decide_eq_true h],
    fun _ _ h _ => by rw [of_decide_eq_true h]⟩).2 (fun _ => .inl (by decide +kernel)) (by decide +kernel) _ (by decide)

/-- `A IS NOT NULL AND B IS NOT NULL`, with `A IS NOT NULL AND A = 5` in the query: `B` is not looked at. -/
theorem notNull_counted_twice :
    fields.SameValues ∧
    (fields.checkIndexCondition 0 [notNull 0, isFive 0] (.and (notNull 0) (notNull 1))).1 = true ∧
    (∀ b ∈ [notNull 0, isFive 0], fields.executeBool (fun id => if id = 0 then some 5 else none) b = some true) ∧
    fields.executeBool (fun id => if id = 0 then some 5 else none) (.and (notNull 0) (notNull 1)) = some false :=
  ⟨⟨fun _ _ h _ => by rw [of_decide_eq_true h], fun _ _ h _ => by rw [of_decide_eq_true h]⟩,
    by decide +kernel, by decide, by decide⟩

end Firebird.Opt
