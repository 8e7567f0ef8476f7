import Firebird.Evl.LikeEvaluator

/-! # What a LIKE pattern means -/

namespace Firebird.Evl

open Lib List

variable {α : Type}

inductive Token (α : Type)
  | character (c : α)
  | matchAny
  | matchOne

/-- The reference meaning: match-one is one character, match-any a sequence of any length. -/
def Matches : List (Token α) → List α → Prop
  | [], w => w = []
  | .character c :: tokens, w => ∃ v, w = c :: v ∧ Matches tokens v
  | .matchOne :: tokens, w => ∃ c v, w = c :: v ∧ Matches tokens v
  | .matchAny :: tokens, w => ∃ u v, w = u ++ v ∧ Matches tokens v

def Token.language : Token α → Language α
  | .character c => {[c]}
  | .matchAny => ⊤
  | .matchOne => exactly 1

def tokensLanguage (tokens : List (Token α)) : Language α := (tokens.map Token.language).prod

theorem tokensLanguage_cons (t : Token α) (tokens : List (Token α)) :
    tokensLanguage (t :: tokens) = t.language * tokensLanguage tokens := prod_cons

theorem matches_iff (tokens : List (Token α)) (w : List α) : Matches tokens w ↔ w ∈ tokensLanguage tokens := by
  induction tokens generalizing w with
  | nil => exact Iff.rfl
  | cons t tokens ih =>
    rw [tokensLanguage_cons]
    cases t with
    | character c =>
      simp only [Matches, Token.language, mem_singleton_mul, ih]
      exact ⟨fun ⟨v, hw, hv⟩ => ⟨v, hv, hw.symm⟩, fun ⟨v, hv, hw⟩ => ⟨v, hw.symm, hv⟩⟩
    | matchAny =>
      simp only [Matches, Token.language, mem_top_mul, ih]
      exact ⟨fun ⟨u, v, hw, hv⟩ => ⟨u, v, hv, hw.symm⟩, fun ⟨u, v, hv, hw⟩ => ⟨u, v, hw.symm, hv⟩⟩
    | matchOne =>
      simp only [Matches, Token.language, Language.mem_mul, mem_exactly, length_eq_one_iff, ih]
      constructor
      · rintro ⟨c, v, rfl, hv⟩
        exact ⟨[c], ⟨c, rfl⟩, v, hv, rfl⟩
      · rintro ⟨_, ⟨c, rfl⟩, v, hv, rfl⟩
        exact ⟨c, v, rfl, hv⟩

section Parsing

variable [DecidableEq α] {p : Specials α} {c d : α} {rest raw text tail : List α}

/-- `raw` is a way to write `text` in a pattern. -/
inductive Spells (p : Specials α) : List α → List α → Prop
  | nil : Spells p [] []
  | plain {c : α} {raw text : List α} (hc : p.isEscape c = false) (h : Spells p raw text) :
      Spells p (c :: raw) (c :: text)
  | escaped {c d : α} {raw text : List α} (hc : p.isEscape c = true) (h : Spells p raw text) :
    Spells p (c :: d :: raw) (d :: text)

theorem Spells.append {raw' text' : List α} (h : Spells p raw text) (h' : Spells p raw' text') :
    Spells p (raw ++ raw') (text ++ text') := by
  induction h with
  | nil => exact h'
  | plain hc _ ih => exact ih.plain hc
  | escaped hc _ ih => exact ih.escaped hc

theorem Spells.unescape (h : Spells p raw text) : unescape p text.length (raw ++ tail) = some text := by
  induction h with
  | nil => rfl
  | plain hc _ ih | escaped hc _ ih => simp [Evl.unescape, hc, ih]

theorem spells_plain (hc : p.isEscape c = false) : Spells p [c] [c] := Spells.nil.plain hc

theorem spells_escaped (hc : p.isEscape c = true) : Spells p [c, d] [d] := Spells.nil.escaped hc

namespace PatternItem

def isString (i : PatternItem α) : Bool := i.type = .piSearch || i.type = .piEscapedString

def spelled (p : Specials α) (i : PatternItem α) : Language α :=
  match i.type with
  | .piNone => 1
  | .piSearch => {i.data.take i.length}
  | .piEscapedString => {w | unescape p i.length i.data = some w}
  | .piSkipFixed => exactly i.length
  | .piSkipMore => atLeast i.length
  | .piDirectMatch => 0

/-- An item of the first pass, where `rest` of the pattern is not read yet. -/
def Read (p : Specials α) (rest : List α) (i : PatternItem α) : Prop :=
  match i.type with
  | .piNone => i.length = 0
  | .piSearch => ∃ text, Spells p text text ∧ i.data = text ++ rest ∧ i.length = text.length ∧ text ≠ []
  | .piEscapedString => ∃ raw text, Spells p raw text ∧ i.data = raw ++ rest ∧ i.length = text.length ∧ text ≠ []
  | .piSkipFixed => 0 < i.length
  | .piSkipMore => True
  | .piDirectMatch => False

variable {i : PatternItem α}

theorem Read.spelled_search (h : i.Read p rest) (htype : i.type = .piSearch) :
    ∃ text, Spells p text text ∧ i.data = text ++ rest ∧ i.length = text.length ∧ text ≠ [] ∧ i.spelled p = {text} := by
  obtain ⟨text, hspells, hdata, hlength, hne⟩ :
      ∃ text, Spells p text text ∧ i.data = text ++ rest ∧ i.length = text.length ∧ text ≠ [] := by
    simpa only [Read, htype] using h
  exact ⟨text, hspells, hdata, hlength, hne, by simp [spelled, htype, hdata, hlength]⟩

theorem spelled_of_unescape (htype : i.type = .piEscapedString) (h : unescape p i.length i.data = some text) :
    i.spelled p = {text} := by
  ext w
  simp only [spelled, htype]
  exact ⟨fun hw => (Option.some.inj (h.symm.trans hw)).symm, fun hw => (show w = text from hw) ▸ h⟩

theorem Read.spelled_escaped (h : i.Read p rest) (htype : i.type = .piEscapedString) :
    ∃ raw text, Spells p raw text ∧ i.data = raw ++ rest ∧ i.length = text.length ∧ text ≠ [] ∧
    i.spelled p = {text} := by
  obtain ⟨raw, text, hspells, hdata, hlength, hne⟩ :
      ∃ raw text, Spells p raw text ∧ i.data = raw ++ rest ∧ i.length = text.length ∧ text ≠ [] := by
    simpa only [Read, htype] using h
  refine ⟨raw, text, hspells, hdata, hlength, hne, spelled_of_unescape htype ?_⟩
  rw [hdata, hlength]
  exact hspells.unescape

end PatternItem

def TakesTurn (i j : PatternItem α) : Prop := j.isString = !i.isString

def spelledItems (p : Specials α) (items : List (PatternItem α)) : Language α := (items.map (·.spelled p)).prod

structure RawItem (p : Specials α) (i : PatternItem α) : Prop where
  read : ∃ rest, i.Read p rest
  notNone : i.type ≠ .piNone
  unmarked : i.matchAny = false

/-- The first pass with `rest` of the pattern before it and the words of `L` behind it. -/
structure Parsed (p : Specials α) (rest : List α) (s : Parsing α) (L : Language α) : Prop where
  before : ∀ i ∈ s.before, RawItem p i
  item : s.item.Read p rest
  unmarked : s.item.matchAny = false
  none : s.item.type = .piNone → s.before = []
  turns : s.items.IsChain TakesTurn
  language : L = spelledItems p s.items

variable {s : Parsing α} {i : PatternItem α} {L M : Language α} {rest' : List α}

theorem parsed_start (pattern : List α) : Parsed p pattern { before := [], item := {} } 1 where
  before := by simp
  item := rfl
  unmarked := rfl
  none _ := rfl
  turns := isChain_singleton _
  language := by simp [spelledItems, Parsing.items, PatternItem.spelled]

theorem Parsed.setItem (h : Parsed p rest s L) (hread : i.Read p rest') (hunmarked : i.matchAny = false)
    (hnone : i.type ≠ .piNone)
    (hturn : s.before ≠ [] → i.isString = s.item.isString) (hlanguage : s.item.spelled p * M = i.spelled p) :
    Parsed p rest' (s.setItem i) (L * M) where
  before := h.before
  item := hread
  unmarked := hunmarked
  none htype := absurd htype hnone
  turns := by
    show (s.before ++ [i]).IsChain TakesTurn
    by_cases hempty : s.before = []
    · simp [hempty]
    · obtain ⟨before, hchain, hlast⟩ := isChain_append.mp h.turns
      refine isChain_append.mpr ⟨before, isChain_singleton _, fun x hx y hy => ?_⟩
      obtain rfl : i = y := by simpa using hy
      have h := hlast x hx s.item (by simp)
      rwa [TakesTurn, ← hturn hempty] at h
  language := by
    rw [h.language]
    simp only [spelledItems, Parsing.items, Parsing.setItem, map_append, prod_append, map_singleton, prod_singleton,
      mul_assoc, hlanguage]

theorem Parsed.grow (h : Parsed p rest s L) (hitem : s.item.type ≠ .piNone) (hread : i.Read p rest')
    (hunmarked : i.matchAny = false)
    (hnone : i.type ≠ .piNone) (hturn : TakesTurn s.item i) (hlanguage : M = i.spelled p) :
    Parsed p rest' (s.grow.setItem i) (L * M) where
  before j hj := by
    rcases mem_append.mp hj with hj | hj
    · exact h.before j hj
    · obtain rfl : j = s.item := by simpa using hj
      exact ⟨⟨rest, h.item⟩, hitem, h.unmarked⟩
  item := hread
  unmarked := hunmarked
  none htype := absurd htype hnone
  turns := by
    show (s.items ++ [i]).IsChain TakesTurn
    refine isChain_append.mpr ⟨h.turns, isChain_singleton _, fun x hx y hy => ?_⟩
    obtain rfl : i = y := by simpa using hy
    obtain rfl : s.item = x := by simpa [Parsing.items] using hx
    exact hturn
  language := by
    rw [h.language, hlanguage]
    simp [spelledItems, Parsing.items, Parsing.setItem, Parsing.grow, mul_assoc]

/-- A string is an escaped one from here on, with one more character. -/
theorem Parsed.escaped {q : List α} (h : Parsed p (q ++ rest) s L) (hq : Spells p q [c]) {raw text : List α}
    (hspells : Spells p raw text) (hdata : s.item.data = raw ++ (q ++ rest)) (hlength : s.item.length = text.length)
    (hstring : s.item.isString = true) (hspelled : s.item.spelled p = {text}) :
    Parsed p rest (s.setItem { s.item with type := .piEscapedString, length := s.item.length + 1 }) (L * {[c]}) := by
  have hspells' := hspells.append hq
  have hdata' : s.item.data = raw ++ q ++ rest := by rw [hdata, append_assoc]
  have hlength' : s.item.length + 1 = (text ++ [c]).length := by simp [hlength]
  refine h.setItem ⟨raw ++ q, text ++ [c], hspells', hdata', hlength', by simp⟩ h.unmarked nofun
    (fun _ => hstring.symm) ?_
  rw [hspelled, singleton_mul_singleton]
  refine (PatternItem.spelled_of_unescape rfl ?_).symm
  simp only [hdata', hlength']
  exact hspells'.unescape

section
variable (h : Parsed p (c :: rest) s L)
include h

theorem Parsed.percentSign : Parsed p rest s.percentSign (L * ⊤) := by
  have hitem := h.item
  unfold Parsing.percentSign
  split
  case h_1 htype | h_2 htype =>
    refine h.grow (by simp [htype]) ?_ rfl nofun ?_ ?_
    · trivial
    · simp [TakesTurn, PatternItem.isString, htype]
    · exact atLeast_zero.symm
  case h_3 htype =>
    refine h.setItem trivial h.unmarked nofun (fun _ => by simp [PatternItem.isString, htype]) ?_
    simp only [PatternItem.spelled, htype, exactly_mul_top]
  case h_4 htype =>
    have hlength : s.item.length = 0 := by simpa only [PatternItem.Read, htype] using hitem
    refine h.setItem trivial h.unmarked nofun (fun _ => by simp [PatternItem.isString, htype]) ?_
    simp [PatternItem.spelled, htype, hlength, atLeast_zero]
  case h_5 htype =>
    refine h.setItem (i := s.item) ?_ h.unmarked (by simp [htype]) (fun _ => rfl) ?_
    · simp only [PatternItem.Read, htype]
    · simp only [PatternItem.spelled, htype, atLeast_mul_top]
  case h_6 htype => simp only [PatternItem.Read, htype] at hitem

theorem Parsed.underscore : Parsed p rest s.underscore (L * exactly 1) := by
  have hitem := h.item
  unfold Parsing.underscore
  split
  case h_1 htype | h_2 htype =>
    refine h.grow (by simp [htype]) ?_ rfl nofun ?_ rfl
    · exact Nat.one_pos
    · simp [TakesTurn, PatternItem.isString, htype]
  case h_3 htype =>
    refine h.setItem Nat.one_pos h.unmarked nofun (fun hempty => absurd (h.none htype) hempty) ?_
    simp [PatternItem.spelled, htype]
  case h_4 htype =>
    refine h.setItem ?_ h.unmarked (by simp [htype]) (fun _ => rfl) ?_
    · simp only [PatternItem.Read, htype, Nat.succ_pos]
    · simp only [PatternItem.spelled, htype, exactly_mul]
  case h_5 htype =>
    refine h.setItem ?_ h.unmarked (by simp [htype]) (fun _ => rfl) ?_
    · simp only [PatternItem.Read, htype]
    · simp only [PatternItem.spelled, htype, atLeast_mul]
  case h_6 htype => simp only [PatternItem.Read, htype] at hitem

theorem Parsed.anythingElse (hc : p.isEscape c = false) : Parsed p rest (s.anythingElse (c :: rest)) (L * {[c]}) := by
  have hitem := h.item
  have hone : ∀ i : PatternItem α, i.type = .piSearch → i.data = c :: rest → i.length = 1 →
      i.Read p rest ∧ {[c]} = i.spelled p := by
    intro i htype hdata hlength
    refine ⟨?_, by simp [PatternItem.spelled, htype, hdata, hlength]⟩
    simp only [PatternItem.Read, htype]
    exact ⟨[c], spells_plain hc, hdata, hlength, by simp⟩
  unfold Parsing.anythingElse
  split
  case h_1 htype | h_2 htype =>
    obtain ⟨hread, hspelled⟩ := hone { s.grow.item with type := .piSearch, data := c :: rest, length := 1 } rfl rfl rfl
    refine h.grow (by simp [htype]) hread rfl nofun ?_ hspelled
    simp [TakesTurn, PatternItem.isString, htype]
  case h_3 htype =>
    obtain ⟨hread, hspelled⟩ := hone { s.item with type := .piSearch, data := c :: rest, length := 1 } rfl rfl rfl
    refine h.setItem hread h.unmarked nofun (fun hempty => absurd (h.none htype) hempty) ?_
    rw [← hspelled]
    simp [PatternItem.spelled, htype]
  case h_4 htype =>
    obtain ⟨text, hspells, hdata, hlength, -, hspelled⟩ := hitem.spelled_search htype
    have hread : ({ s.item with length := s.item.length + 1 } : PatternItem α).Read p rest := by
      simp only [PatternItem.Read, htype]
      exact ⟨text ++ [c], hspells.append (spells_plain hc), by simp [hdata], by simp [hlength], by simp⟩
    refine h.setItem hread h.unmarked (by simp [htype]) (fun _ => rfl) ?_
    rw [hspelled, singleton_mul_singleton]
    simp [PatternItem.spelled, htype, hdata, hlength, take_append, take_of_length_le]
  case h_5 htype =>
    obtain ⟨raw, text, hspells, hdata, hlength, -, hspelled⟩ := hitem.spelled_escaped htype
    have hparsed := Parsed.escaped (q := [c]) h (spells_plain hc) hspells hdata hlength
      (by simp [PatternItem.isString, htype]) hspelled
    rwa [← htype] at hparsed
  case h_6 htype => simp only [PatternItem.Read, htype] at hitem

end

theorem Parsed.escapedSymbol (h : Parsed p (c :: d :: rest) s L) (hc : p.isEscape c = true) :
    Parsed p rest (s.escapedSymbol (c :: d :: rest)) (L * {[d]}) := by
  have hitem := h.item
  have hone : ∀ i : PatternItem α, i.type = .piEscapedString → i.data = c :: d :: rest → i.length = 1 →
      i.Read p rest ∧ {[d]} = i.spelled p := by
    intro i htype hdata hlength
    refine ⟨?_, (PatternItem.spelled_of_unescape htype ?_).symm⟩
    · simp only [PatternItem.Read, htype]
      exact ⟨[c, d], [d], spells_escaped hc, hdata, hlength, by simp⟩
    · rw [hdata, hlength]
      exact (spells_escaped hc).unescape
  unfold Parsing.escapedSymbol
  split
  case h_1 htype | h_2 htype =>
    obtain ⟨hread, hspelled⟩ :=
      hone { s.grow.item with type := .piEscapedString, data := c :: d :: rest, length := 1 } rfl rfl rfl
    refine h.grow (by simp [htype]) hread rfl nofun ?_ hspelled
    simp [TakesTurn, PatternItem.isString, htype]
  case h_3 htype =>
    obtain ⟨hread, hspelled⟩ :=
      hone { s.item with type := .piEscapedString, data := c :: d :: rest, length := 1 } rfl rfl rfl
    refine h.setItem hread h.unmarked nofun (fun hempty => absurd (h.none htype) hempty) ?_
    rw [← hspelled]
    simp [PatternItem.spelled, htype]
  case h_4 htype =>
    obtain ⟨text, hspells, hdata, hlength, -, hspelled⟩ := hitem.spelled_search htype
    exact h.escaped (spells_escaped hc) hspells hdata hlength (by simp [PatternItem.isString, htype]) hspelled
  case h_5 htype =>
    obtain ⟨raw, text, hspells, hdata, hlength, -, hspelled⟩ := hitem.spelled_escaped htype
    have hparsed := h.escaped (spells_escaped hc) hspells hdata hlength (by simp [PatternItem.isString, htype]) hspelled
    rwa [← htype] at hparsed
  case h_6 htype => simp only [PatternItem.Read, htype] at hitem

/-- What the first pass ends with, for a pattern that has the tokens `ts` or is not accepted. -/
def ParseOutcome (p : Specials α) (L : Language α) (result : Except Error (Parsing α)) : Option (List (Token α)) → Prop
  | some ts => ∃ s, result = .ok s ∧ Parsed p [] s (L * tokensLanguage ts)
  | none => result = .error .escapeInvalid

theorem ParseOutcome.cons {result : Except Error (Parsing α)} {ts : Option (List (Token α))} (t : Token α)
    (h : ParseOutcome p (L * t.language) result ts) : ParseOutcome p L result (ts.map (t :: ·)) := by
  cases ts with
  | none => exact h
  | some ts =>
    obtain ⟨s, hresult, hparsed⟩ := h
    exact ⟨s, hresult, by rwa [tokensLanguage_cons, ← mul_assoc]⟩

variable [Zero α]

/-- The tokens of a pattern. Only a special character can be escaped. -/
def tokens (p : Specials α) : List α → Option (List (Token α))
  | [] => some []
  | c :: rest =>
    if p.isEscape c then
      match rest with
      | d :: rest =>
        if d = p.escapeChar ∨ p.isMatchAny d ∨ p.isMatchOne d then
          (tokens p rest).map (.character d :: ·)
        else
          none
      | [] => none
    else if p.isMatchAny c then
      (tokens p rest).map (.matchAny :: ·)
    else if p.isMatchOne c then
      (tokens p rest).map (.matchOne :: ·)
    else
      (tokens p rest).map (.character c :: ·)

theorem parsePattern_spec (pattern : List α) (h : Parsed p pattern s L) :
    ParseOutcome p L (parsePattern p pattern s) (tokens p pattern) := by
  fun_induction tokens p pattern generalizing s L with
  | case1 => exact ⟨s, rfl, by simpa [tokensLanguage] using h⟩
  | case2 c hc d rest hspecial ih =>
    refine ParseOutcome.cons (.character d) ?_
    simpa only [parsePattern, hc, hspecial, if_true, Token.language] using ih (h.escapedSymbol hc)
  | case3 c hc d rest hspecial => simp [ParseOutcome, parsePattern, hc, hspecial]
  | case4 c hc => simp [ParseOutcome, parsePattern, hc]
  | case5 c rest hc hany ih =>
    refine ParseOutcome.cons .matchAny ?_
    unfold parsePattern
    simpa [Token.language, hc, hany] using ih h.percentSign
  | case6 c rest hc hany hone ih =>
    refine ParseOutcome.cons .matchOne ?_
    unfold parsePattern
    simpa [Token.language, hc, hany, hone] using ih h.underscore
  | case7 c rest hc hany hone ih =>
    refine ParseOutcome.cons (.character c) ?_
    unfold parsePattern
    simpa [Token.language, hc, hany, hone] using ih (h.anythingElse (by simpa using hc))

end Parsing

end Firebird.Evl
