import Firebird.Evl.LikePattern

/-! # The compiled pattern -/

namespace Firebird.Evl

open Lib List

variable {α : Type}

namespace PatternItem

def text (i : PatternItem α) : List α := i.data.take i.length

def own (i : PatternItem α) : Language α :=
  match i.type with
  | .piSkipFixed => exactly i.length
  | .piDirectMatch => {i.text}
  | .piSearch => ⊤ * {i.text}
  | .piNone => 1
  | .piEscapedString | .piSkipMore => 0

def behind (i : PatternItem α) : Language α := if i.matchAny then ⊤ else 1

def language (i : PatternItem α) : Language α := i.own * i.behind

structure Fit (i : PatternItem α) : Prop where
  pos : 0 < i.length
  type : i.type = .piSkipFixed ∨ i.type = .piDirectMatch ∨ i.type = .piSearch
  inside : i.type ≠ .piSkipFixed → i.length ≤ i.data.length
  table : i.type = .piSearch → JumpTable i.data i.length i.kmpNext

end PatternItem

def itemsLanguage (items : List (PatternItem α)) : Language α := (items.map (·.language)).prod

@[simp] theorem itemsLanguage_nil : itemsLanguage ([] : List (PatternItem α)) = 1 := rfl

theorem itemsLanguage_cons (i : PatternItem α) (items : List (PatternItem α)) :
    itemsLanguage (i :: items) = i.own * (i.behind * itemsLanguage items) := by
  rw [← mul_assoc]
  exact prod_cons

theorem itemsLanguage_concat (i : PatternItem α) (items : List (PatternItem α)) :
    itemsLanguage (items ++ [i]) = itemsLanguage items * i.language := by
  simp [itemsLanguage]

def SearchAfterAny (i j : PatternItem α) : Prop := i.matchAny = true ↔ j.type = .piSearch

structure Compiled (items : List (PatternItem α)) : Prop where
  fit : ∀ i ∈ items, i.Fit
  chain : items.IsChain SearchAfterAny

variable {i j : PatternItem α} {items done rest : List (PatternItem α)}

theorem Compiled.tail (h : Compiled (i :: items)) : Compiled items :=
  ⟨fun j hj => h.fit j (mem_cons_of_mem i hj), h.chain.tail⟩

theorem Compiled.head_fit (h : Compiled (i :: items)) : i.Fit := h.fit i mem_cons_self

theorem Compiled.next (h : Compiled (i :: j :: items)) : SearchAfterAny i j := by
  have hchain := h.chain
  rw [isChain_cons_cons] at hchain
  exact hchain.1

theorem Compiled.concat (h : Compiled items) (hi : i.Fit) (hlast : ∀ j ∈ items.getLast?, SearchAfterAny j i) :
    Compiled (items ++ [i]) where
  fit j hj := by
    rcases mem_append.mp hj with hj | hj
    · exact h.fit j hj
    · obtain rfl : j = i := by simpa using hj
      exact hi
  chain := by
    refine isChain_append.mpr ⟨h.chain, isChain_singleton _, fun x hx y hy => ?_⟩
    obtain rfl : i = y := by simpa using hy
    exact hlast x hx

theorem compiled_nil : Compiled ([] : List (PatternItem α)) := ⟨by simp, isChain_nil⟩

theorem Compiled.mark (h : Compiled (items ++ [i])) : Compiled (items ++ [{ i with matchAny := true }]) := by
  obtain ⟨hitems, -, hlast⟩ := isChain_append.mp h.chain
  have hi := h.fit i (by simp)
  refine Compiled.concat ⟨fun k hk => h.fit k (by simp [hk]), hitems⟩ ⟨hi.pos, hi.type, hi.inside, hi.table⟩ fun k hk =>
    ?_
  exact hlast k hk i (by simp)

def doneLanguage (done : List (PatternItem α)) (directMatch : Bool) : Language α :=
  itemsLanguage done.reverse * if directMatch then 1 else ⊤

theorem doneLanguage_cons (j : PatternItem α) (done : List (PatternItem α)) (directMatch : Bool) :
    doneLanguage (j :: done) directMatch = itemsLanguage done.reverse *
    (j.language * if directMatch then 1 else ⊤) := by
  simp [doneLanguage, itemsLanguage_concat, mul_assoc]

theorem reset_compiled (hne : items ≠ []) (h : Compiled items) :
    reset items = some { patternItems := items, branches := [{ pattern := items }], matchType := .none } := by
  cases items with
  | nil => exact absurd rfl hne
  | cons i items =>
    have htype : i.type ≠ .piNone := by
      rcases h.head_fit.type with htype | htype | htype <;> simp [htype]
    simp [reset, htype]

section Compile

variable [DecidableEq α] {p : Specials α}

theorem compileString_spec (directMatch : Bool) (htype : i.type = .piSearch) (hpos : 0 < i.length)
    (hinside : i.length ≤ i.data.length) (hunmarked : i.matchAny = false) :
    ∃ i', compileString directMatch i = some i' ∧ i'.Fit ∧ i'.matchAny = false ∧
      i'.type = (if directMatch then .piDirectMatch else .piSearch) ∧
      i'.language = (if directMatch then 1 else ⊤) * {i.text} := by
  cases directMatch with
  | true =>
    refine ⟨_, rfl, ⟨hpos, by simp, fun _ => hinside, nofun⟩, hunmarked, rfl, ?_⟩
    simp [PatternItem.language, PatternItem.own, PatternItem.behind, PatternItem.text, hunmarked]
  | false =>
    obtain ⟨kmpNext, htable, hjump⟩ := preKmp_spec hpos hinside
    refine ⟨{ i with kmpNext }, by simp [compileString, htable], ⟨hpos, by simp [htype], fun _ => hinside, fun _ =>
      hjump⟩, hunmarked, htype, ?_⟩
    simp [PatternItem.language, PatternItem.own, PatternItem.behind, PatternItem.text, hunmarked, htype]

structure Midway (p : Specials α) (done : List (PatternItem α)) (directMatch : Bool)
    (rest : List (PatternItem α)) : Prop where
  compiled : Compiled done.reverse
  raw : ∀ i ∈ rest, RawItem p i
  turns : rest.IsChain TakesTurn
  direct : directMatch = true →
    ∀ i ∈ done.head?, i.matchAny = false ∧ ∀ j ∈ rest.head?, j.isString = decide (i.type = .piSkipFixed)
  search : directMatch = false → (∀ i ∈ done.head?, i.matchAny = true) ∧ ∀ j ∈ rest.head?, j.isString = true
  some : done = [] → ∃ i rest', rest = i :: rest' ∧ (i.type = .piSkipMore → i.length = 0 → rest' ≠ [])

variable {directMatch : Bool}

section
variable (h : Midway p done directMatch (i :: rest))
include h

theorem Midway.turn : ∀ j ∈ rest.head?, j.isString = !i.isString :=
  fun _ hj => h.turns.rel_head? hj

theorem Midway.direct_of_skip (hi : i.isString = false) : directMatch = true := by
  cases directMatch with
  | true => rfl
  | false =>
    have hstring := (h.search rfl).2 i rfl
    simp [hi] at hstring

theorem Midway.string (hi : i.isString = true) (hj : j.Fit) (hmark : j.matchAny = false)
    (htype : j.type = if directMatch then .piDirectMatch else .piSearch) : Midway p (j :: done) true rest where
  compiled := by
    rw [reverse_cons]
    refine h.compiled.concat hj fun k hk => ?_
    rw [getLast?_reverse] at hk
    cases directMatch with
    | true => simp [SearchAfterAny, (h.direct rfl k hk).1, htype]
    | false => simp [SearchAfterAny, (h.search rfl).1 k hk, htype]
  raw k hk := h.raw k (mem_cons_of_mem i hk)
  turns := h.turns.tail
  direct _ k hk := by
    obtain rfl : j = k := by simpa using hk
    refine ⟨hmark, fun l hl => ?_⟩
    rw [h.turn l hl, hi, htype]
    cases directMatch <;> rfl
  search := nofun
  some := nofun

theorem Midway.skip (hi : i.isString = false) (hj : j.Fit) (htype : j.type = .piSkipFixed) :
    Midway p (j :: done) (!j.matchAny) rest where
  compiled := by
    rw [reverse_cons]
    refine h.compiled.concat hj fun k hk => ?_
    rw [getLast?_reverse] at hk
    simp [SearchAfterAny, (h.direct (h.direct_of_skip hi) k hk).1, htype]
  raw k hk := h.raw k (mem_cons_of_mem i hk)
  turns := h.turns.tail
  direct hmark k hk := by
    obtain rfl : j = k := by simpa using hk
    exact ⟨by simpa using hmark, fun l hl => by rw [h.turn l hl, hi, htype]; rfl⟩
  search hmark := by
    refine ⟨fun k hk => ?_, fun l hl => by rw [h.turn l hl, hi]; rfl⟩
    obtain rfl : j = k := by simpa using hk
    simpa using hmark
  some := nofun

end

theorem Midway.mark (h : Midway p (j :: done) directMatch (i :: rest)) (hi : i.isString = false) :
    Midway p ({ j with matchAny := true } :: done) false rest where
  compiled := by
    have hcompiled := h.compiled
    rw [reverse_cons] at hcompiled ⊢
    exact hcompiled.mark
  raw k hk := h.raw k (mem_cons_of_mem i hk)
  turns := h.turns.tail
  direct := nofun
  search _ := by
    refine ⟨fun k hk => ?_, fun l hl => by rw [h.turn l hl, hi]; rfl⟩
    obtain rfl : { j with matchAny := true } = k := by simpa using hk
    rfl
  some := nofun

theorem Midway.leading (h : Midway p [] directMatch (i :: rest)) (hi : i.isString = false) (hrest : rest ≠ []) :
    Midway p [] false rest where
  compiled := compiled_nil
  raw k hk := h.raw k (mem_cons_of_mem i hk)
  turns := h.turns.tail
  direct := nofun
  search _ := ⟨nofun, fun l hl => by rw [h.turn l hl, hi]; rfl⟩
  some _ := by
    obtain ⟨j, rest, rfl⟩ := exists_cons_of_ne_nil hrest
    have hj := h.turn j rfl
    refine ⟨j, rest, rfl, fun htype => ?_⟩
    rw [hi] at hj
    simp [PatternItem.isString, htype] at hj

theorem Midway.done_language (h : Midway p done directMatch []) :
    doneLanguage done directMatch = itemsLanguage done.reverse := by
  cases directMatch with
  | true => simp [doneLanguage]
  | false =>
    cases done with
    | nil => simpa using h.some rfl
    | cons j done =>
      have hmark : j.matchAny = true := (h.search rfl).1 j rfl
      simp [doneLanguage, itemsLanguage_concat, PatternItem.language, PatternItem.behind, hmark, mul_assoc]

theorem spelledItems_cons (i : PatternItem α) (items : List (PatternItem α)) :
    spelledItems p (i :: items) = i.spelled p * spelledItems p items := prod_cons

theorem Midway.string_language {text : List α} (hspelled : i.spelled p = {text})
    (hlanguage : j.language = (if directMatch then 1 else ⊤) * {text}) :
    doneLanguage (j :: done) true * spelledItems p rest = doneLanguage done directMatch *
    spelledItems p (i :: rest) := by
  rw [doneLanguage_cons, spelledItems_cons, hlanguage, hspelled, doneLanguage]
  simp [mul_assoc]

theorem compileItems_spec (h : Midway p done directMatch rest) :
    ∃ items, compileItems p done directMatch rest = some items ∧ items ≠ [] ∧ Compiled items ∧
      itemsLanguage items = doneLanguage done directMatch * spelledItems p rest := by
  induction rest generalizing done directMatch with
  | nil =>
    refine ⟨done.reverse, rfl, ?_, h.compiled, by simp [h.done_language, spelledItems]⟩
    cases done with
    | nil => simpa using h.some rfl
    | cons j done => simp
  | cons i rest ih =>
    obtain ⟨⟨unread, hread⟩, hnone, hunmarked⟩ := h.raw i mem_cons_self
    cases htype : i.type with
    | piNone => exact absurd htype hnone
    | piDirectMatch => simp [PatternItem.Read, htype] at hread
    | piSearch =>
      obtain ⟨text, -, hdata, hlength, hne, hspelled⟩ := hread.spelled_search htype
      have htext : i.text = text := by simp [PatternItem.text, hdata, hlength]
      obtain ⟨j, hj, hfit, hmark, hjtype, hlanguage⟩ := compileString_spec directMatch htype
        (by simpa [hlength, length_pos_iff] using hne) (by simp [hdata, hlength]) hunmarked
      obtain ⟨items, hitems, hprops⟩ := ih (h.string (by simp [PatternItem.isString, htype]) hfit hmark hjtype)
      refine ⟨items, by simp [compileItems, htype, hj, hitems], ?_⟩
      rwa [Midway.string_language hspelled (htext ▸ hlanguage)] at hprops
    | piEscapedString =>
      obtain ⟨raw, text, hspells, hdata, hlength, hne, hspelled⟩ := hread.spelled_escaped htype
      have hunescape : unescape p i.length i.data = some text := by
        rw [hdata, hlength]
        exact hspells.unescape
      obtain ⟨j, hj, hfit, hmark, hjtype, hlanguage⟩ :=
        compileString_spec (i := { i with type := .piSearch, data := text }) directMatch rfl
        (by simpa [hlength, length_pos_iff] using hne) (by simp [hlength]) hunmarked
      have htext : ({ i with type := .piSearch, data := text } : PatternItem α).text =
          text := by simp [PatternItem.text, hlength]
      obtain ⟨items, hitems, hprops⟩ := ih (h.string (by simp [PatternItem.isString, htype]) hfit hmark hjtype)
      refine ⟨items, by simp [compileItems, htype, hunescape, hj, hitems], ?_⟩
      rwa [Midway.string_language hspelled (htext ▸ hlanguage)] at hprops
    | piSkipFixed =>
      have hskip : i.isString = false := by simp [PatternItem.isString, htype]
      obtain rfl := h.direct_of_skip hskip
      have hpos : 0 < i.length := by simpa [PatternItem.Read, htype] using hread
      have hnext := h.skip hskip ⟨hpos, by simp [htype], fun hne => absurd htype hne, by simp [htype]⟩ htype
      rw [hunmarked] at hnext
      obtain ⟨items, hitems, hprops⟩ := ih hnext
      refine ⟨items, by simpa [compileItems, htype] using hitems, ?_⟩
      have hlanguage : i.language = i.spelled p := by
        simp [PatternItem.language, PatternItem.own, PatternItem.behind, PatternItem.spelled, htype, hunmarked]
      rw [doneLanguage_cons, hlanguage] at hprops
      simpa [doneLanguage, spelledItems_cons, mul_assoc] using hprops
    | piSkipMore =>
      have hskip : i.isString = false := by simp [PatternItem.isString, htype]
      obtain rfl := h.direct_of_skip hskip
      by_cases hlength : i.length = 0
      · have hspelled : i.spelled p = ⊤ := by simp [PatternItem.spelled, htype, hlength, atLeast_zero]
        cases done with
        | nil =>
          have hrest : rest ≠ [] := by
            obtain ⟨i', rest', heq, hmore⟩ := h.some rfl
            obtain ⟨rfl, rfl⟩ := cons.inj heq
            exact hmore htype hlength
          obtain ⟨items, hitems, hprops⟩ := ih (h.leading hskip hrest)
          refine ⟨items, by simpa [compileItems, htype, hlength, hrest] using hitems, ?_⟩
          simpa [doneLanguage, spelledItems_cons, hspelled] using hprops
        | cons j done =>
          obtain ⟨items, hitems, hprops⟩ := ih (h.mark hskip)
          refine ⟨items, by simpa [compileItems, htype, hlength] using hitems, ?_⟩
          have hmark : j.matchAny = false := (h.direct rfl j rfl).1
          have hlanguage : ({ j with matchAny := true } : PatternItem α).language = j.language * ⊤ := by
            simp [PatternItem.language, PatternItem.own, PatternItem.behind, PatternItem.text, hmark]
          rw [doneLanguage_cons, hlanguage] at hprops
          rw [doneLanguage_cons, spelledItems_cons, hspelled]
          simpa [mul_assoc] using hprops
      · have hnext := h.skip (j := { i with type := .piSkipFixed, matchAny := true }) hskip
          ⟨Nat.pos_of_ne_zero hlength, by simp, by simp, by simp⟩ rfl
        obtain ⟨items, hitems, hprops⟩ := ih hnext
        refine ⟨items, by simpa [compileItems, htype, hlength] using hitems, ?_⟩
        have hlanguage : ({ i with type := .piSkipFixed, matchAny := true } : PatternItem α).language =
            i.spelled p := by
          simp [PatternItem.language, PatternItem.own, PatternItem.behind, PatternItem.spelled, htype, exactly_mul_top]
        have htop : i.spelled p * ⊤ = i.spelled p := by
          simp only [PatternItem.spelled, htype, atLeast_mul_top]
        rw [doneLanguage_cons, hlanguage] at hprops
        simpa [doneLanguage, spelledItems_cons, htop, mul_assoc] using hprops

/-- The evaluator as the constructor leaves it, with the words of `L` before it. -/
inductive Ready (L : Language α) : LikeEvaluator α → Prop
  | empty (items : List (PatternItem α)) (h : L = 1) :
      Ready L { patternItems := items, branches := [], matchType := .fixed }
  | anything (items : List (PatternItem α)) (h : L = ⊤) :
      Ready L { patternItems := items, branches := [], matchType := .any }
  | start {items : List (PatternItem α)} (hne : items ≠ []) (hcompiled : Compiled items) (h : L = itemsLanguage items) :
    Ready L { patternItems := items, branches := [{ pattern := items }], matchType := .none }

theorem Parsed.compile {L : Language α} {s : Parsing α} (h : Parsed p [] s L) :
    ∃ e, (compileItems p [] true s.items).bind reset = some e ∧ Ready L e := by
  have hlanguage := h.language
  have hitem := h.item
  by_cases hnone : s.item.type = .piNone
  · have hitems : s.items = [s.item] := by simp [Parsing.items, h.none hnone]
    refine ⟨_, ?_, Ready.empty [s.item] ?_⟩
    · simp [hitems, compileItems, hnone, reset, h.unmarked]
    · simp [hlanguage, hitems, spelledItems, PatternItem.spelled, hnone]
  · by_cases hsingle : s.before = [] ∧ s.item.type = .piSkipMore ∧ s.item.length = 0
    · obtain ⟨hbefore, htype, hlength⟩ := hsingle
      have hitems : s.items = [s.item] := by simp [Parsing.items, hbefore]
      refine ⟨_, ?_, Ready.anything [{ s.item with type := .piNone, matchAny := true }] ?_⟩
      · simp [hitems, compileItems, htype, hlength, reset]
      · simp [hlanguage, hitems, spelledItems, PatternItem.spelled, htype, hlength, atLeast_zero]
    · have hmidway : Midway p [] true s.items := by
        refine ⟨compiled_nil, fun i hi => ?_, h.turns, fun _ => by simp, by simp, fun _ => ?_⟩
        · rcases mem_append.mp hi with hi | hi
          · exact h.before i hi
          · obtain rfl : i = s.item := by simpa using hi
            exact ⟨⟨[], hitem⟩, hnone, h.unmarked⟩
        · cases hbefore : s.before with
          | nil =>
            refine ⟨s.item, [], by simp [Parsing.items, hbefore], fun htype hlength => ?_⟩
            exact absurd ⟨hbefore, htype, hlength⟩ hsingle
          | cons i before => exact ⟨i, before ++ [s.item], by simp [Parsing.items, hbefore], fun _ _ => by simp⟩
      obtain ⟨items, hitems, hne, hcompiled, heq⟩ := compileItems_spec hmidway
      refine ⟨_, ?_, Ready.start hne hcompiled ?_⟩
      · rw [hitems, Option.bind_some, reset_compiled hne hcompiled]
      · simpa [doneLanguage, hlanguage] using heq.symm

theorem create_spec [Zero α] (pattern : List α) :
    match tokens p pattern with
    | some ts => ∃ e, create p pattern = .ok e ∧ Ready (tokensLanguage ts) e
    | none => create p pattern = .error .escapeInvalid := by
  have hparse := parsePattern_spec (p := p) pattern (parsed_start pattern)
  cases htokens : tokens p pattern with
  | none =>
    rw [htokens] at hparse
    have herror : parsePattern p pattern { before := [], item := {} } = .error .escapeInvalid := hparse
    simp [create, herror]
  | some ts =>
    rw [htokens] at hparse
    obtain ⟨s, hs, hparsed⟩ := hparse
    obtain ⟨e, he, hready⟩ := hparsed.compile
    rw [one_mul] at hready
    exact ⟨e, by simp [create, hs, he], hready⟩

end Compile

end Firebird.Evl
