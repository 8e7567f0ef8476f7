import Mathlib

/-! # Reading the segments of a blob

`BLB_get_segment` and `BLB_get_data` of `src/jrd/blb.cpp`. The data of a blob lies in the blob's own
record or on data pages one after another (`get_next_page`); each segment of a segmented blob begins
with its length in two bytes, which are on one page, while its data may go on over pages. A stream blob
is data only. Filters and positioning are not in the model. -/

namespace Firebird.Blb
open List

/-- A blob that is read: the data pages not yet fetched, what is left of the present one (none before the first page)
    and of the present segment, and whether the end was reported. -/
structure Blob where
  segmented : Bool
  pages : List (List UInt8)
  segment : Option (List UInt8)
  fragmentSize : Nat
  eof : Bool

def segmentLength (low high : UInt8) : Nat := low.toNat + 256 * high.toNat

/-- The loop that looks for the length of the next segment, on later pages if the present one is at its
    end. No result means that there is no more. -/
def nextLength : List UInt8 → List (List UInt8) → Option (Nat × List UInt8 × List (List UInt8))
  | low :: high :: clump, pages => some (segmentLength low high, clump, pages)
  | _, [] => none
  | _, page :: pages => nextLength page pages
termination_by _ pages => pages.length

/-- The loop that moves data: what is moved, the rest of the page, the later pages and the rest of the segment. -/
def moveData (segmented : Bool) : List (List UInt8) → List UInt8 → Nat → Nat →
    List UInt8 × List UInt8 × List (List UInt8) × Nat
  | pages, clump, bufferLength, fragment =>
    let l := min bufferLength clump.length
    let l := if segmented then min l fragment else l
    let fragment := if segmented then fragment - l else fragment
    match clump.drop l, pages with
    | [], [] => (clump.take l, [], [], fragment)
    | [], page :: pages =>
      if bufferLength - l = 0 ∨ (segmented ∧ fragment = 0) then (clump.take l, page, pages, fragment)
      else
        let (moved, clump', pages, fragment) := moveData segmented pages page (bufferLength - l) fragment
        (clump.take l ++ moved, clump', pages, fragment)
    | clump', pages => (clump.take l, clump', pages, fragment)

namespace Blob

def getSegment (bufferLength : Nat) (blob : Blob) : List UInt8 × Blob :=
  if blob.eof then ([], blob)
  else if blob.segment = some [] then ([], { blob with eof := true })
  else
    match (if blob.segmented ∧ blob.fragmentSize = 0 then nextLength (blob.segment.getD []) blob.pages
      else some (blob.fragmentSize, blob.segment.getD [], blob.pages)) with
    | none => ([], { blob with pages := [], eof := true })
    | some (fragment, clump, pages) =>
      let (moved, clump, pages, fragment) := moveData blob.segmented pages clump bufferLength fragment
      (moved, { blob with segment := some clump, pages := pages, fragmentSize := fragment })

/-- `BLB_get_data` without closing the blob; the first argument bounds the turns of its loop. -/
def getDataFrom : Nat → Nat → Blob → List UInt8 × Blob
  | 0, _, blob => ([], blob)
  | fuel + 1, length, blob =>
    if length = 0 then ([], blob)
    else
      let (bytes, blob) := blob.getSegment (min length 32768)
      if blob.eof ∨ bytes = [] then (bytes, blob)
      else
        let (more, blob) := getDataFrom fuel (length - bytes.length) blob
        (bytes ++ more, blob)

/-- Each turn that does not end the loop reads something. -/
def getData (length : Nat) (blob : Blob) : List UInt8 × Blob := getDataFrom length length blob

end Blob

/-! ### What a blob holds -/

/-- What lies on the pages: the length of a segment, which is not divided, or a byte of data. -/
inductive Token
  | length (n : Nat) | byte (b : UInt8)

def Token.bytes : Token → List UInt8
  | length n => [UInt8.ofNat (n % 256), UInt8.ofNat (n / 256)]
  | byte b => [b]

def bytesOf (tokens : List Token) : List UInt8 := tokens.flatMap Token.bytes

def tokensOf (segment : List UInt8) : List Token := .length segment.length :: segment.map .byte

/-- What is still to be read of a blob: its segments, the first one without what was read of it; a stream
    blob is one segment. -/
structure Holds (blob : Blob) (segments : List (List UInt8)) : Prop where
  notEof : blob.eof = false
  tokens : ∃ (present : List Token) (later : List (List Token)) (fragment : List UInt8) (behind : List (List UInt8)),
    present ++ later.flatten = fragment.map .byte ++ behind.flatMap tokensOf ∧
    blob.segment.getD [] = bytesOf present ∧ blob.pages = later.map bytesOf ∧ (∀ page ∈ later, page ≠ []) ∧
    (∀ segment ∈ behind, segment.length < 65536) ∧ segments = (if fragment = [] then behind else fragment :: behind) ∧
    (blob.segmented = true → blob.fragmentSize = fragment.length) ∧
    (blob.segmented = false → behind = [] ∧ (blob.segment = none → later ≠ []))
  fetched : blob.segment = some [] → blob.pages = []

variable {blob : Blob} {segments : List (List UInt8)} {tokens more : List Token} {later : List (List Token)}

@[simp] theorem bytesOf_nil : bytesOf [] = [] := rfl

@[simp] theorem bytesOf_cons (token : Token) (tokens : List Token) :
    bytesOf (token :: tokens) = token.bytes ++ bytesOf tokens := rfl

@[simp] theorem bytesOf_append (a b : List Token) : bytesOf (a ++ b) = bytesOf a ++ bytesOf b := flatMap_append

@[simp] theorem bytesOf_map (data : List UInt8) : bytesOf (data.map .byte) = data := by
  induction data with
  | nil => rfl
  | cons b data ih => rw [map_cons, bytesOf_cons, ih]; rfl

theorem bytesOf_eq_nil : bytesOf tokens = [] ↔ tokens = [] := by
  cases tokens with
  | nil => simp
  | cons token tokens => cases token <;> simp [Token.bytes]

theorem segmentLength_bytes {n : Nat} (hn : n < 65536) :
    segmentLength (UInt8.ofNat (n % 256)) (UInt8.ofNat (n / 256)) = n := by
  have hlow : (UInt8.ofNat (n % 256)).toNat = n % 256 := by simp
  have hhigh : (UInt8.ofNat (n / 256)).toNat = n / 256 := by
    exact Nat.mod_eq_of_lt (by omega)
  rw [segmentLength]
  omega

theorem nextLength_spec {n : Nat} (hn : n < 65536) (h : tokens ++ later.flatten = .length n :: more) :
    ∃ (tokens' : List Token) (later' : List (List Token)), nextLength (bytesOf tokens) (later.map bytesOf) = some (n,
      bytesOf tokens', later'.map bytesOf) ∧ tokens' ++ later'.flatten = more ∧ ∀ page ∈ later', page ∈ later := by
  induction later generalizing tokens with
  | nil =>
    rw [flatten_nil, append_nil] at h
    subst h
    refine ⟨more, [], ?_, by simp, fun _ hmem => hmem⟩
    rw [bytesOf_cons, Token.bytes, cons_append, cons_append, nil_append, nextLength, segmentLength_bytes hn]
  | cons page later ih =>
    cases tokens with
    | nil =>
      obtain ⟨tokens', later', heq, hsplit, hsub⟩ := ih h
      refine ⟨tokens', later', ?_, hsplit, fun p hp => mem_cons_of_mem _ (hsub p hp)⟩
      rw [map_cons, nextLength, heq]
      exact fun _ _ _ hnil => by cases hnil
    | cons token tokens =>
      rw [cons_append, cons.injEq] at h
      obtain ⟨rfl, hmore⟩ := h
      refine ⟨tokens, page :: later, ?_, hmore, fun _ hmem => hmem⟩
      rw [bytesOf_cons, Token.bytes, cons_append, cons_append, nil_append, nextLength, segmentLength_bytes hn]

theorem nextLength_none : nextLength [] ([] : List (List UInt8)) = none := by
  rw [nextLength]
  exact fun _ _ _ hnil => by cases hnil

theorem data_cases {data : List UInt8} {behind : List Token} (h : tokens ++ behind = data.map .byte ++ more) :
    (∃ first second, data = first ++ second ∧ tokens = first.map .byte ∧ behind = second.map .byte ++ more) ∨
      ∃ next, next ≠ [] ∧ tokens = data.map .byte ++ next ∧ more = next ++ behind := by
  rcases append_eq_append_iff.mp h with ⟨middle, hdata, hbehind⟩ | ⟨next, htokens, hmore⟩
  · obtain ⟨first, second, rfl, hfirst, rfl⟩ := map_eq_append_iff.mp hdata
    exact .inl ⟨first, second, rfl, hfirst.symm, hbehind⟩
  · by_cases hnext : next = []
    · subst hnext
      exact .inl ⟨data, [], by simp, by simpa using htokens, by simpa using hmore.symm⟩
    · exact .inr ⟨next, hnext, htokens, hmore⟩

section
variable {segmented : Bool} {pages : List (List UInt8)} {page clump : List UInt8} {n fragment l : Nat}

section
variable (hl : (if segmented = true then min (min n clump.length) fragment else min n clump.length) = l)
include hl

theorem moveData_stop (hne : clump.drop l ≠ []) : moveData segmented pages clump n fragment =
      (clump.take l, clump.drop l, pages, if segmented = true then fragment - l else fragment) := by
  rw [moveData.eq_def]
  dsimp only
  rw [hl]
  split
  · exact absurd ‹_› hne
  · exact absurd ‹_› hne
  · rfl

theorem moveData_last (hnil : clump.drop l = []) : moveData segmented [] clump n fragment =
      (clump.take l, [], [], if segmented = true then fragment - l else fragment) := by
  rw [moveData.eq_def]
  dsimp only
  rw [hl, hnil]

theorem moveData_page (hnil : clump.drop l = []) : moveData segmented (page :: pages) clump n fragment =
      if n - l = 0 ∨ (segmented = true ∧ (if segmented = true then fragment - l else fragment) = 0) then
        (clump.take l, page, pages, if segmented = true then fragment - l else fragment)
      else
        (clump.take l ++ (moveData segmented pages page (n - l)
          (if segmented = true then fragment - l else fragment)).1,
          (moveData segmented pages page (n - l) (if segmented = true then fragment - l else fragment)).2) := by
  rw [moveData.eq_def]
  dsimp only
  rw [hl, hnil]

end

end

theorem moveData_within {segmented : Bool} {data : List UInt8} {n fragment : Nat} {pages : List (List UInt8)}
    (hrest : more ≠ []) (htokens : tokens = (data.take n).map .byte ++ more)
    (hfragment : segmented = true → fragment = data.length) (hstream : segmented = false → n ≤ data.length) :
    moveData segmented pages (bytesOf tokens) n fragment =
      (data.take n, bytesOf more, pages, if segmented = true then (data.drop n).length else fragment) := by
  have hclump : bytesOf tokens = data.take n ++ bytesOf more := by rw [htokens, bytesOf_append, bytesOf_map]
  have hne : bytesOf more ≠ [] := fun hnil => hrest (bytesOf_eq_nil.mp hnil)
  have hl : (if segmented = true then min (min n (bytesOf tokens).length) fragment else min n (bytesOf tokens).length) =
      (data.take n).length := by
    rw [hclump, length_append, length_take]
    cases segmented with
    | true =>
      rw [if_pos rfl, hfragment rfl]
      omega
    | false =>
      have := hstream rfl
      rw [if_neg Bool.false_ne_true]
      omega
  have hdrop : (bytesOf tokens).drop (data.take n).length = bytesOf more := by rw [hclump, drop_left]
  have htake : (bytesOf tokens).take (data.take n).length = data.take n := by rw [hclump, take_left]
  rw [moveData_stop hl (by rw [hdrop]; exact hne), hdrop, htake]
  cases segmented with
  | true =>
    rw [if_pos rfl, if_pos rfl, hfragment rfl, length_take, length_drop]
    congr 3
    omega
  | false => rfl

theorem moveData_spec {segmented : Bool} {data : List UInt8} {n fragment : Nat}
    (h : tokens ++ later.flatten = data.map .byte ++ more) (hpages : ∀ page ∈ later, page ≠ [])
    (hfragment : segmented = true → fragment = data.length) (hstream : segmented = false → more = []) :
    ∃ (tokens' : List Token) (later' : List (List Token)),
      moveData segmented (later.map bytesOf) (bytesOf tokens) n fragment = (data.take n, bytesOf tokens',
        later'.map bytesOf, if segmented = true then (data.drop n).length else fragment) ∧
      tokens' ++ later'.flatten = (data.drop n).map .byte ++ more ∧ (∀ page ∈ later', page ≠ []) ∧
      (tokens' = [] → later' = []) := by
  induction later generalizing tokens data n fragment with
  | nil =>
    rw [flatten_nil, append_nil] at h
    subst h
    by_cases hrest : (data.drop n).map Token.byte ++ more = []
    · -- all there is fits
      obtain ⟨hdrop, rfl⟩ := append_eq_nil_iff.mp hrest
      have hle : data.length ≤ n := drop_eq_nil_iff.mp (map_eq_nil_iff.mp hdrop)
      have hl : (if segmented = true then min (min n (bytesOf (data.map Token.byte ++ [])).length) fragment
          else min n (bytesOf (data.map Token.byte ++ [])).length) = data.length := by
        rw [append_nil, bytesOf_map]
        cases segmented with
        | true =>
          rw [if_pos rfl, hfragment rfl]
          omega
        | false =>
          rw [if_neg Bool.false_ne_true]
          omega
      refine ⟨[], [], ?_, by rw [hdrop]; rfl, fun _ hmem => absurd hmem not_mem_nil, fun _ => rfl⟩
      rw [map_nil, moveData_last hl (by rw [append_nil, bytesOf_map, drop_length]), append_nil, bytesOf_map,
        take_length, take_of_length_le hle, drop_of_length_le hle]
      cases segmented with
      | true =>
        rw [hfragment rfl, Nat.sub_self]
        rfl
      | false => rfl
    · refine ⟨(data.drop n).map .byte ++ more, [], moveData_within hrest ?_ hfragment fun hs => ?_, by simp,
        fun _ hmem => absurd hmem not_mem_nil, fun hnil => absurd hnil hrest⟩
      · rw [← append_assoc, ← map_append, take_append_drop]
      · have hmore := hstream hs
        subst hmore
        by_contra hlt
        rw [drop_of_length_le (by omega)] at hrest
        exact hrest rfl
  | cons page later ih =>
    have hlater : ∀ p ∈ later, p ≠ [] := fun p hp => hpages p (mem_cons_of_mem _ hp)
    rw [flatten_cons] at h
    rcases data_cases h with ⟨first, second, rfl, rfl, hbehind⟩ | ⟨next, hnext, rfl, rfl⟩
    · by_cases hlt : n < first.length
      · -- the buffer is full before the end of the page
        have htake : (first ++ second).take n = first.take n := take_append_of_le_length (by omega)
        have hdrop : (first ++ second).drop n = first.drop n ++ second := drop_append_of_le_length (by omega)
        have hrest : (first.drop n).map Token.byte ≠ [] := fun hnil => by
          have := drop_eq_nil_iff.mp (map_eq_nil_iff.mp hnil)
          omega
        refine ⟨(first.drop n).map .byte, page :: later, ?_, ?_, hpages, fun hnil => absurd hnil hrest⟩
        · refine moveData_within hrest ?_ hfragment fun _ => ?_
          · rw [htake, ← map_append, take_append_drop]
          · rw [length_append]
            omega
        · rw [flatten_cons, hbehind, hdrop, map_append, append_assoc]
      · have hge : first.length ≤ n := Nat.le_of_not_lt hlt
        have htake : (first ++ second).take n = first ++ second.take (n - first.length) := by
          rw [take_append, take_of_length_le hge]
        have hdrop : (first ++ second).drop n = second.drop (n - first.length) := by
          rw [drop_append, drop_of_length_le hge, nil_append]
        have hl : (if segmented = true then min (min n (bytesOf (first.map Token.byte)).length) fragment
            else min n (bytesOf (first.map Token.byte)).length) = first.length := by
          rw [bytesOf_map]
          cases segmented with
          | true =>
            rw [if_pos rfl, hfragment rfl, length_append]
            omega
          | false =>
            rw [if_neg Bool.false_ne_true]
            omega
        have hleft : (if segmented = true then fragment - first.length else fragment) =
            if segmented = true then second.length else fragment := by
          cases segmented with
          | true =>
            rw [if_pos rfl, if_pos rfl, hfragment rfl, length_append]
            omega
          | false => rfl
        rw [map_cons, moveData_page hl (by rw [bytesOf_map, drop_length]), hleft, bytesOf_map, take_length]
        by_cases hdone : n - first.length = 0 ∨ segmented = true ∧
          (if segmented = true then second.length else fragment) = 0
        · -- the next page is fetched, but nothing of it is wanted
          rw [if_pos hdone]
          have hnone : second.take (n - first.length) = [] ∧ second.drop (n - first.length) = second := by
            rcases hdone with hfull | ⟨hseg, hempty⟩
            · rw [hfull]
              exact ⟨rfl, rfl⟩
            · rw [if_pos hseg] at hempty
              rw [length_eq_zero_iff.mp hempty]
              simp
          refine ⟨page, later, ?_, ?_, hlater, fun hnil => absurd hnil (hpages page (mem_cons_self ..))⟩
          · rw [htake, hdrop, hnone.1, hnone.2, append_nil]
          · rw [hdrop, hnone.2]
            exact hbehind
        · rw [if_neg hdone]
          have hsecond : segmented = true → (if segmented = true then second.length else fragment) = second.length :=
            fun hseg => if_pos hseg
          obtain ⟨tokens', later', heq, hsplit, hne, hfetched⟩ := ih (n := n - first.length) hbehind hlater hsecond
          refine ⟨tokens', later', ?_, by rw [hdrop]; exact hsplit, hne, hfetched⟩
          rw [heq, htake, hdrop]
          cases segmented <;> rfl
    · -- the segment ends on this page
      have hseg : segmented = true := by
        cases segmented with
        | true => rfl
        | false => exact absurd (append_eq_nil_iff.mp (hstream rfl)).1 hnext
      have hrest : (data.drop n).map Token.byte ++ next ≠ [] := fun hnil => hnext (append_eq_nil_iff.mp hnil).2
      refine ⟨(data.drop n).map .byte ++ next, page :: later, ?_, ?_, hpages, fun hnil => absurd hnil hrest⟩
      · refine moveData_within hrest ?_ hfragment fun hs => ?_
        · rw [← append_assoc, ← map_append, take_append_drop]
        · rw [hseg] at hs
          cases hs
      · rw [flatten_cons, append_assoc]

def leave (n : Nat) (segment : List UInt8) (behind : List (List UInt8)) : List (List UInt8) :=
  if n < segment.length then segment.drop n :: behind else behind

theorem leave_eq (n : Nat) (segment : List UInt8) (behind : List (List UInt8)) :
    leave n segment behind = if segment.drop n = [] then behind else segment.drop n :: behind := by
  unfold leave
  by_cases hlt : n < segment.length
  · have hne : segment.drop n ≠ [] := fun hnil => by
      have := drop_eq_nil_iff.mp hnil
      omega
    rw [if_pos hlt, if_neg hne]
  · rw [if_neg hlt, if_pos (drop_of_length_le (by omega))]

theorem later_eq_nil (hpages : ∀ page ∈ later, page ≠ []) (h : later.flatten = []) : later = [] := by
  cases later with
  | nil => rfl
  | cons page later =>
    rw [flatten_cons, append_eq_nil_iff] at h
    exact absurd h.1 (hpages page (mem_cons_self ..))

theorem Holds.moved {present : List Token} {fragment : List UInt8} {behind : List (List UInt8)} {size n : Nat}
    (heof : blob.eof = false) (htokens : present ++ later.flatten = fragment.map .byte ++ behind.flatMap tokensOf)
    (hpages : ∀ page ∈ later, page ≠ []) (hbehind : ∀ segment ∈ behind, segment.length < 65536)
    (hsize : blob.segmented = true → size = fragment.length) (hstream : blob.segmented = false → behind = []) :
    (moveData blob.segmented (later.map bytesOf) (bytesOf present) n size).1 = fragment.take n ∧
      Holds { blob with
        segment := some (moveData blob.segmented (later.map bytesOf) (bytesOf present) n size).2.1
        pages := (moveData blob.segmented (later.map bytesOf) (bytesOf present) n size).2.2.1
        fragmentSize := (moveData blob.segmented (later.map bytesOf) (bytesOf present) n size).2.2.2 }
        (leave n fragment behind) := by
  obtain ⟨tokens', later', heq, hsplit, hpages', hfetched⟩ := moveData_spec (n := n) htokens hpages hsize fun hs => by
    rw [hstream hs]
    rfl
  rw [heq]
  refine ⟨rfl, heof, ⟨tokens', later', fragment.drop n, behind, hsplit, rfl, rfl, hpages', hbehind, leave_eq ..,
    fun hs => ?_, fun hs => ⟨hstream hs, fun hnone => by cases hnone⟩⟩, fun hnil => ?_⟩
  · rw [if_pos hs]
  · rw [hfetched (bytesOf_eq_nil.mp (Option.some.inj hnil))]
    rfl

/-- What is read of the segments by a call that returns some bytes: what the buffer takes of the next
    one; the end is reported behind the last one. -/
def Reads (n : Nat) (segments : List (List UInt8)) (bytes : List UInt8) (blob : Blob) : Prop :=
  match segments with
  | [] => bytes = [] ∧ blob.eof = true
  | segment :: behind => bytes = segment.take n ∧ Holds blob (leave n segment behind)

theorem getSegment_spec (h : Holds blob segments) (n : Nat) :
    Reads n segments (blob.getSegment n).1 (blob.getSegment n).2 := by
  obtain ⟨present, later, fragment, behind, htokens, hpresent, hlater, hpages, hbehind, hsegments, hsize, hstream⟩ :=
    h.tokens
  have heof := h.notEof
  unfold Blob.getSegment
  rw [if_neg (by rw [heof]; exact Bool.false_ne_true)]
  by_cases hend : blob.segment = some []
  · -- the present page was the last one
    have hnone := h.fetched hend
    rw [hlater, map_eq_nil_iff] at hnone
    rw [hend, Option.getD_some, eq_comm, bytesOf_eq_nil] at hpresent
    rw [hnone, hpresent, flatten_nil, append_nil, eq_comm, append_eq_nil_iff, map_eq_nil_iff] at htokens
    obtain ⟨rfl, htokens⟩ := htokens
    have hempty : behind = [] := by
      cases behind with
      | nil => rfl
      | cons segment behind => cases htokens
    rw [hempty] at hsegments
    rw [if_pos hend, hsegments]
    exact ⟨rfl, rfl⟩
  rw [if_neg hend, hpresent, hlater]
  by_cases hnext : blob.segmented = true ∧ blob.fragmentSize = 0
  · -- the next segment is begun
    have hfragment : fragment = [] := by
      have := hsize hnext.1
      rw [hnext.2] at this
      exact length_eq_zero_iff.mp this.symm
    subst hfragment
    rw [if_pos hnext, hsegments]
    cases behind with
    | nil =>
      obtain ⟨rfl, hflat⟩ := append_eq_nil_iff.mp htokens
      rw [later_eq_nil hpages hflat, bytesOf_nil, map_nil, nextLength_none]
      exact ⟨rfl, rfl⟩
    | cons segment behind =>
      have hshort : segment.length < 65536 := hbehind segment (mem_cons_self ..)
      obtain ⟨tokens', later', heq, hsplit, hsub⟩ := nextLength_spec hshort htokens
      rw [heq]
      exact Holds.moved heof hsplit (fun page hpage => hpages page (hsub page hpage))
        (fun s hs => hbehind s (mem_cons_of_mem _ hs)) (fun _ => rfl) (fun hs => by rw [hnext.1] at hs; cases hs)
  · rw [if_neg hnext]
    have hfragment : fragment ≠ [] := by
      rintro rfl
      cases hseg : blob.segmented with
      | true => exact hnext ⟨hseg, by rw [hsize hseg]; rfl⟩
      | false =>
        obtain ⟨rfl, hopened⟩ := hstream hseg
        obtain ⟨rfl, hflat⟩ := append_eq_nil_iff.mp htokens
        have hnone := later_eq_nil hpages hflat
        cases hsegment : blob.segment with
        | none => exact hopened hsegment hnone
        | some clump =>
          rw [hsegment, Option.getD_some] at hpresent
          rw [hpresent] at hsegment
          exact hend hsegment
    rw [if_neg hfragment] at hsegments
    rw [hsegments]
    exact Holds.moved heof htokens hpages hbehind hsize fun hs => (hstream hs).1

theorem Holds.ofSegments (segments : List (List UInt8)) (hshort : ∀ segment ∈ segments, segment.length < 65536) :
    Holds ⟨true, [], some (bytesOf (segments.flatMap tokensOf)), 0, false⟩ segments :=
  ⟨rfl, ⟨segments.flatMap tokensOf, [], [], segments, by simp, rfl, rfl, by simp, hshort, by simp, fun _ =>
    rfl, by simp⟩, fun _ => rfl⟩

/-- What a request for some bytes gives: the data of the next segments, up to the first empty one; what
    is left; and whether the end was reached. -/
def gather : Nat → List (List UInt8) → List UInt8 × List (List UInt8) × Bool
  | 0, segments => ([], segments, false)
  | _ + 1, [] => ([], [], true)
  | _ + 1, [] :: behind => ([], behind, false)
  | n + 1, segment :: behind =>
    let (more, left, eof) := gather (n + 1 - segment.length) behind
    if segment.length ≤ n + 1 then (segment ++ more, left, eof) else (segment.take (n + 1),
      segment.drop (n + 1) :: behind, false)
termination_by _ segments => segments.length

section
variable {segment : List UInt8} {behind : List (List UInt8)} {n k : Nat}

theorem gather_zero (segments : List (List UInt8)) : gather 0 segments = ([], segments, false) := by rw [gather]

theorem gather_nil (hn : 0 < n) : gather n [] = ([], [], true) := by
  obtain ⟨m, rfl⟩ := Nat.exists_eq_succ_of_ne_zero (Nat.pos_iff_ne_zero.mp hn)
  rw [gather]

theorem gather_empty (hn : 0 < n) (behind : List (List UInt8)) : gather n ([] :: behind) = ([], behind, false) := by
  obtain ⟨m, rfl⟩ := Nat.exists_eq_succ_of_ne_zero (Nat.pos_iff_ne_zero.mp hn)
  rw [gather]

theorem gather_cons (hn : 0 < n) (hne : segment ≠ []) : gather n (segment :: behind) =
    if segment.length ≤ n then
      (segment ++ (gather (n - segment.length) behind).1, (gather (n - segment.length) behind).2)
    else (segment.take n, segment.drop n :: behind, false) := by
  obtain ⟨m, rfl⟩ := Nat.exists_eq_succ_of_ne_zero (Nat.pos_iff_ne_zero.mp hn)
  rw [gather]
  exact hne

theorem gather_step (hk : 0 < k) (hle : k ≤ n) (hne : segment ≠ []) : gather n (segment :: behind) =
    (segment.take k ++ (gather (n - (segment.take k).length) (leave k segment behind)).1,
      (gather (n - (segment.take k).length) (leave k segment behind)).2) := by
  rw [gather_cons (by omega) hne, length_take]
  by_cases hshort : segment.length ≤ k
  · rw [if_pos (by omega), take_of_length_le hshort, Nat.min_eq_right hshort, leave, if_neg (by omega)]
  · have hrest : segment.drop k ≠ [] := fun hnil => by
      have := drop_eq_nil_iff.mp hnil
      omega
    have hleave : leave k segment behind = segment.drop k :: behind := if_pos (by omega)
    rw [Nat.min_eq_left (by omega), hleave]
    by_cases hall : n = k
    · rw [hall, Nat.sub_self, gather_zero, append_nil, if_neg hshort]
    · rw [gather_cons (by omega) hrest, length_drop]
      by_cases hfits : segment.length ≤ n
      · have hleft : n - k - (segment.length - k) = n - segment.length := by omega
        rw [if_pos hfits, if_pos (by omega), hleft, ← append_assoc, take_append_drop]
      · have hsum : k + (n - k) = n := by omega
        rw [if_neg hfits, if_neg (by omega), drop_drop, ← take_add, hsum]

end

theorem getDataFrom_spec (fuel length : Nat) (hfuel : length ≤ fuel) (h : Holds blob segments) :
    (blob.getDataFrom fuel length).1 = (gather length segments).1 ∧
      ((gather length segments).2.2 = true → (blob.getDataFrom fuel length).2.eof = true) ∧
      ((gather length segments).2.2 = false → Holds (blob.getDataFrom fuel length).2 (gather length segments).2.1) := by
  induction fuel generalizing length blob segments with
  | zero =>
    obtain rfl : length = 0 := Nat.le_zero.mp hfuel
    rw [gather_zero]
    exact ⟨rfl, fun hfalse => Bool.noConfusion hfalse, fun _ => h⟩
  | succ fuel ih =>
    by_cases hzero : length = 0
    · rw [hzero, gather_zero, Blob.getDataFrom]
      exact ⟨rfl, fun hfalse => Bool.noConfusion hfalse, fun _ => h⟩
    have hpos : 0 < length := Nat.pos_of_ne_zero hzero
    have hchunk : 0 < min length 32768 := by omega
    have hread := getSegment_spec h (min length 32768)
    rw [Blob.getDataFrom, if_neg hzero]
    dsimp only
    cases segments with
    | nil =>
      obtain ⟨hbytes, heof⟩ := hread
      rw [gather_nil hpos, if_pos (.inl heof), hbytes]
      exact ⟨rfl, fun _ => heof, fun hfalse => Bool.noConfusion hfalse⟩
    | cons segment behind =>
      obtain ⟨hbytes, hholds⟩ := hread
      by_cases hempty : segment = []
      · -- nothing is read of an empty segment: the data behind it is left for the next call
        subst hempty
        rw [take_nil] at hbytes
        rw [gather_empty hpos, if_pos (.inr hbytes), hbytes]
        exact ⟨rfl, fun hfalse => Bool.noConfusion hfalse, fun _ => hholds⟩
      · have htaken : 0 < (segment.take (min length 32768)).length := by
          have := length_pos_of_ne_nil hempty
          rw [length_take]
          omega
        have hnot : ¬((blob.getSegment (min length 32768)).2.eof = true ∨
            (blob.getSegment (min length 32768)).1 = []) := by
          rw [hholds.notEof, hbytes]
          rintro (heof | hnil)
          · cases heof
          · rw [hnil] at htaken
            exact Nat.lt_irrefl _ htaken
        rw [if_neg hnot, gather_step hchunk (Nat.min_le_left ..) hempty, hbytes]
        obtain ⟨hmore, heof, hleft⟩ := ih (length - (segment.take (min length 32768)).length) (by omega) hholds
        exact ⟨congrArg _ hmore, heof, hleft⟩

theorem getData_spec (h : Holds blob segments) (length : Nat) : (blob.getData length).1 = (gather length segments).1 ∧
    ((gather length segments).2.2 = true → (blob.getData length).2.eof = true) ∧
    ((gather length segments).2.2 = false → Holds (blob.getData length).2 (gather length segments).2.1) :=
  getDataFrom_spec length length (Nat.le_refl length) h

end Firebird.Blb
