import Firebird.Evl.ChunkedSearch
import Firebird.Evl.LikeMatches

/-! # LIKE with STARTING beside it

The LIKE branch of `Optimizer::optimizeLikeSimilar`, on canonical characters. -/

namespace Firebird.Opt

open Evl List

variable {α : Type} [DecidableEq α] [Zero α] {p : Specials α} {pattern literal w : List α} {ts : List (Token α)}

/-- The loop up to the first wildcard character. -/
def literalPrefix (p : Specials α) : List α → List α
  | [] => []
  | c :: rest =>
    if p.isEscape c then
      match rest with
      | [] => []
      | d :: rest => d :: literalPrefix p rest
    else if p.isMatchOne c || p.isMatchAny c then [] else c :: literalPrefix p rest

def optimizeLikeSimilar (p : Specials α) (pattern : List α) : Option (List α) :=
  if pattern.head?.any fun c => !p.isEscape c && (p.isMatchOne c || p.isMatchAny c) then none
  else some (literalPrefix p pattern)

theorem prefix_of_matches (hts : tokens p pattern = some ts) (h : Matches ts w) : literalPrefix p pattern <+: w := by
  fun_induction literalPrefix p pattern generalizing ts w with
  | case1 | case2 | case4 => exact nil_prefix
  | case3 c hc d rest ih =>
    rw [tokens, if_pos hc] at hts
    obtain ⟨ts, hrest, rfl⟩ := Option.map_eq_some_iff.mp (Option.ite_none_right_eq_some.mp hts).2
    obtain ⟨v, rfl, hv⟩ := h
    exact (prefix_cons_inj d).mpr (ih hrest hv)
  | case5 c rest hc hplain ih =>
    obtain ⟨hone, hany⟩ := not_or.mp (mt Bool.or_eq_true_iff.mpr hplain)
    rw [tokens.eq_def] at hts
    dsimp only at hts
    rw [if_neg hc, if_neg hany, if_neg hone] at hts
    obtain ⟨ts, hrest, rfl⟩ := Option.map_eq_some_iff.mp hts
    obtain ⟨v, rfl, hv⟩ := h
    exact (prefix_cons_inj c).mpr (ih hrest hv)

/-- The predicate beside LIKE changes no result, however the two evaluators get the text. -/
theorem optimizeLikeSimilar_sound {e : LikeEvaluator α} (he : create p pattern = .ok e)
    (hliteral : optimizeLikeSimilar p pattern = some literal) (chunks chunks' : List (List α))
    (htext : chunks.flatten = chunks'.flatten) :
    ∃ like more starts, e.feed chunks = some (like, more) ∧
      feed (fun e data => some (StartsEvaluator.processNextChunk e data)) (.new literal) chunks' = some starts ∧
      (starts.getResult && like.getResult) = like.getResult := by
  have hcreate := create_spec (p := p) pattern
  cases hts : tokens p pattern with
  | none => simp [hts, he] at hcreate
  | some ts =>
    rw [hts] at hcreate
    obtain ⟨e, he', hready⟩ := hcreate
    obtain rfl := Except.ok.inj (he.symm.trans he')
    obtain ⟨like, more, hlike, hresult, -⟩ := feed_spec hready.means chunks
    obtain ⟨starts, hstarts, hanswer, -⟩ := feed_starts (x := literal) chunks' (Nat.zero_le _)
    refine ⟨like, more, starts, hlike, hstarts, Bool.and_eq_right_iff_imp.mpr fun htrue => hanswer.mpr ?_⟩
    obtain rfl := Option.some.inj (Option.ite_none_left_eq_some.mp hliteral).2
    exact htext ▸ prefix_of_matches hts ((matches_iff ..).mpr (hresult.mp htrue))

theorem optimizeLikeSimilar_sound_escaped : ∃ (like : LikeEvaluator Nat) (starts : StartsEvaluator Nat),
    feed (fun e data => some (StartsEvaluator.processNextChunk e data)) (.new [97, 95]) [[97, 95, 98]] = some starts ∧
      (starts.getResult && like.getResult) = like.getResult := by
  obtain ⟨like, -, starts, -, hboth⟩ := optimizeLikeSimilar_sound
    (show create ⟨92, true, 37, 95⟩ [97, 92, 95, 37] = .ok _ from rfl) rfl [[97, 95], [98]] [[97, 95, 98]] rfl
  exact ⟨like, starts, hboth⟩

end Firebird.Opt
