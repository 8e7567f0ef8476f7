import Firebird.Lib.Cells
import Firebird.Lib.Run
import Firebird.Pag.PageInventory

/-! # The clumplets of the header page

The list of entries that the header page keeps behind its fields (`HeaderClumplet`, `storeClump`,
`PAG_add_header_entry`, `PAG_replace_entry_first` and `PAG_delete_clump_entry` in `src/jrd/pag.cpp`): a type byte, a
length byte and the data of each entry, and `HDR_end` behind the last. Page cache and locks are not in the model; a call
runs while it has the page for itself. -/

namespace Firebird.Pag

open Lib List

/-- `HDR_SIZE`, where `hdr_data` begins. -/
def hdrSize : Nat := 148

/-- A header page: `hdr_page_size`, `hdr_end` and its bytes by their offset. -/
structure HeaderPage where
  pageSize : Nat
  hdrEnd : Nat
  bytes : Nat → UInt8

inductive ClumpOutcome
  | done (modified : Bool)
  | readOnly
  | overflow
  | bugcheck

def ClumpOutcome.failed : ClumpOutcome → Bool
  | done _ => false
  | _ => true

def memmove (mem : Nat → UInt8) (dst src n : Nat) : Nat → UInt8 := store mem dst (cells mem src n)

namespace HeaderPage

/-- The loop of `find`: the last entry of the type, and the end of the list. -/
def findFrom (h : HeaderPage) (type : Nat) : Nat → Nat → Option Nat → Option (Option Nat × Nat)
  | 0, _, _ => none
  | fuel + 1, p, q =>
    if h.bytes p = 0 then some (q, p)
    else h.findFrom type fuel (p + 2 + (h.bytes (p + 1)).toNat) (if (h.bytes p).toNat = type then some p else q)

def find (h : HeaderPage) (type : Nat) : Option (Option Nat × Nat) := h.findFrom type h.pageSize hdrSize none

def checkSpace (h : HeaderPage) (length : Nat) : Bool := h.hdrEnd + (2 + length) < h.pageSize

/-- `add`; without an entry the data are zeros. -/
def add (h : HeaderPage) (type length : Nat) (entry : Option (List UInt8)) (first : Bool) : HeaderPage :=
  let data := (entry.getD (replicate length 0)).take length
  let clump := UInt8.ofNat type :: UInt8.ofNat length :: data
  let bytes := if first then store (memmove h.bytes (hdrSize + length + 2) hdrSize (h.hdrEnd - hdrSize + 1))
    hdrSize clump
    else store h.bytes h.hdrEnd (clump ++ [0])
  { h with hdrEnd := ushort (h.hdrEnd + (length + 2)), bytes }

/-- `remove`, of the entry at an offset of a list with this end. -/
def remove (h : HeaderPage) (entry clumpEnd : Nat) : HeaderPage :=
  let orgLen := (h.bytes (entry + 1)).toNat + 2
  let tail := entry + orgLen
  let shift := ushort (clumpEnd - tail + 1)
  { h with hdrEnd := ushort (h.hdrEnd + 2 ^ 16 - orgLen), bytes := memmove h.bytes entry tail shift }

def addHeaderEntry (h : HeaderPage) (type len : Nat) (entry : Option (List UInt8)) :
    Option (HeaderPage × ClumpOutcome) :=
  match h.find type with
  | none => none
  | some (some _, _) => some (h, .done false)
  | some (none, _) => if h.checkSpace len then some (h.add type len entry false, .done true) else some (h, .bugcheck)

def replaceEntryFirst (h : HeaderPage) (type len : Nat) (entry : Option (List UInt8)) :
    Option (HeaderPage × ClumpOutcome) :=
  let finish (h : HeaderPage) : HeaderPage × ClumpOutcome :=
    if h.checkSpace len then (h.add type len entry true, .done true) else (h, .bugcheck)
  match h.find type with
  | none => none
  | some (some p, clumpEnd) =>
    let h := h.remove p clumpEnd
    if entry.isNone then some (h, .done false) else some (finish h)
  | some (none, _) => some (finish h)

def deleteClumpEntry (h : HeaderPage) (type : Nat) : Option (HeaderPage × ClumpOutcome) :=
  match h.find type with
  | none => none
  | some (some p, clumpEnd) => some (h.remove p clumpEnd, .done true)
  | some (none, _) => some (h, .done false)

def storeClump (h : HeaderPage) (type len : Nat) (entry : List UInt8) : Option (HeaderPage × ClumpOutcome) :=
  let finish (h : HeaderPage) : HeaderPage × ClumpOutcome :=
    if h.checkSpace len then (h.add type len (some entry) false, .done true) else (h, .overflow)
  match h.find type with
  | none => none
  | some (some p, clumpEnd) =>
    -- of the same size it is overwritten
    if (h.bytes (p + 1)).toNat = len then some ({ h with bytes := store h.bytes (p + 2) (entry.take len) }, .done true)
    else some (finish (h.remove p clumpEnd))
  | some (none, _) => some (finish h)

end HeaderPage

inductive ClumpCall
  | addHeaderEntry (type len : Nat) (entry : Option (List UInt8))
  | replaceEntryFirst (type len : Nat) (entry : Option (List UInt8))
  | deleteClumpEntry (type : Nat)
  | storeClump (type len : Nat) (entry : List UInt8)

/-- Each call begins with `ensureDbWritable`. -/
def HeaderPage.call (readOnly : Bool) (h : HeaderPage) (c : ClumpCall) : Option (HeaderPage × ClumpOutcome) :=
  if readOnly then some (h, .readOnly)
  else match c with
    | .addHeaderEntry type len entry => h.addHeaderEntry type len entry
    | .replaceEntryFirst type len entry => h.replaceEntryFirst type len entry
    | .deleteClumpEntry type => h.deleteClumpEntry type
    | .storeClump type len entry => h.storeClump type len entry

/-- A type and its data. -/
abbrev Clump := UInt8 × List UInt8

def Clump.encode (e : Clump) : List UInt8 := e.1 :: UInt8.ofNat e.2.length :: e.2

def encode (entries : List Clump) : List UInt8 := entries.flatMap Clump.encode

/-- The page holds the entries, `hdr_end` is at their end, and the list ends inside the page. -/
structure Formed (h : HeaderPage) (entries : List Clump) : Prop where
  clumps : ∀ e ∈ entries, e.1 ≠ 0 ∧ e.2.length < 2 ^ 8
  bytes : cells h.bytes hdrSize (encode entries).length = encode entries
  terminator : h.bytes h.hdrEnd = 0
  hdrEnd : h.hdrEnd = hdrSize + (encode entries).length
  inside : h.hdrEnd < h.pageSize
  pageSize : h.pageSize < 2 ^ 16

variable {h h' : HeaderPage} {entries A B : List Clump} {type len p clumpEnd : Nat} {d : List UInt8} {t : UInt8}

@[simp] theorem Clump.length_encode (e : Clump) : e.encode.length = e.2.length + 2 := rfl

theorem encode_append : encode (A ++ B) = encode A ++ encode B := flatMap_append

theorem encode_cons (e : Clump) : encode (e :: B) = e.encode ++ encode B := rfl

theorem length_le_encode (entries : List Clump) : entries.length ≤ (encode entries).length := by
  induction entries with
  | nil => exact Nat.le_refl 0
  | cons e entries ih =>
    rw [encode_cons, length_append, length_cons, Clump.length_encode]
    omega

theorem cells_eq_append {α : Type} {mem : Nat → α} {a : Nat} {xs ys : List α} :
    cells mem a (xs ++ ys).length = xs ++ ys ↔ cells mem a xs.length = xs ∧
    cells mem (a + xs.length) ys.length = ys := by
  rw [length_append, cells_add]
  constructor
  · intro heq
    exact append_inj heq (length_cells _ _ _)
  · rintro ⟨hxs, hys⟩
    rw [hxs, hys]

theorem toNat_ofNat_length (hd : d.length < 2 ^ 8) : (UInt8.ofNat d.length).toNat = d.length :=
  UInt8.toNat_ofNat_of_lt' hd

variable {e : Clump}

theorem cells_encode_iff {mem : Nat → UInt8} {a : Nat} : cells mem a e.encode.length = e.encode ↔
    mem a = e.1 ∧ mem (a + 1) = UInt8.ofNat e.2.length ∧ cells mem (a + 2) e.2.length = e.2 := by
  rw [Clump.length_encode, Clump.encode, cells_succ, cells_succ, cons.injEq, cons.injEq]

theorem cells_clump {mem : Nat → UInt8} {a : Nat} (he : cells mem a e.encode.length = e.encode)
    (hd : e.2.length < 2 ^ 8) :
    mem a = e.1 ∧ (mem (a + 1)).toNat = e.2.length ∧ cells mem (a + 2) e.2.length = e.2 := by
  obtain ⟨htype, hlength, hdata⟩ := cells_encode_iff.mp he
  refine ⟨htype, ?_, hdata⟩
  rw [hlength, toNat_ofNat_length hd]

namespace HeaderPage

theorem findFrom_cons {fuel a : Nat} {q : Option Nat} (he : e.1 ≠ 0 ∧ e.2.length < 2 ^ 8)
    (hbytes : cells h.bytes a (encode (e :: entries)).length = encode (e :: entries)) :
    h.findFrom type (fuel + 1) a q =
        h.findFrom type fuel (a + e.encode.length) (if e.1.toNat = type then some a else q) ∧
      cells h.bytes (a + e.encode.length) (encode entries).length = encode entries ∧
      a + (encode (e :: entries)).length = a + e.encode.length + (encode entries).length := by
  rw [encode_cons, cells_eq_append] at hbytes
  obtain ⟨hfirst, hrest⟩ := hbytes
  obtain ⟨htype, hlength, -⟩ := cells_clump hfirst he.2
  have hnext : a + 2 + e.2.length = a + e.encode.length := by
    rw [Clump.length_encode]
    omega
  refine ⟨?_, hrest, ?_⟩
  · rw [findFrom, if_neg (htype ▸ he.1), hlength, hnext, htype]
  · rw [encode_cons, length_append, Nat.add_assoc]

theorem findFrom_of_notMem {fuel a : Nat} {q : Option Nat} (hclumps : ∀ e ∈ entries, e.1 ≠ 0 ∧ e.2.length < 2 ^ 8)
    (hbytes : cells h.bytes a (encode entries).length = encode entries)
    (hend : h.bytes (a + (encode entries).length) = 0)
    (hno : ∀ e ∈ entries, e.1.toNat ≠ type) (hfuel : entries.length < fuel) :
    h.findFrom type fuel a q = some (q, a + (encode entries).length) := by
  induction entries generalizing a fuel q with
  | nil =>
    obtain ⟨fuel, rfl⟩ := Nat.exists_eq_add_of_le' (Nat.one_le_of_lt hfuel)
    have hzero : h.bytes a = 0 := hend
    rw [findFrom, if_pos hzero]
    rfl
  | cons e entries ih =>
    obtain ⟨fuel, rfl⟩ := Nat.exists_eq_add_of_le' (Nat.one_le_of_lt hfuel)
    obtain ⟨hstep, hrest, hlen⟩ := findFrom_cons (hclumps e (.head _)) hbytes
    rw [hlen] at hend ⊢
    rw [hstep, if_neg (hno e (.head _))]
    exact ih (fun e' he' => hclumps e' (.tail e he')) hrest hend (fun e' he' => hno e' (.tail e he'))
      (Nat.lt_of_succ_lt_succ hfuel)

theorem findFrom_of_last {fuel a : Nat} {q : Option Nat} (hclumps : ∀ e' ∈ A ++ e :: B, e'.1 ≠ 0 ∧ e'.2.length < 2 ^ 8)
    (hbytes : cells h.bytes a (encode (A ++ e :: B)).length = encode (A ++ e :: B))
    (hend : h.bytes (a + (encode (A ++ e :: B)).length) = 0) (hno : ∀ e' ∈ B, e'.1.toNat ≠ type)
    (htype : e.1.toNat = type) (hfuel : (A ++ e :: B).length < fuel) :
    h.findFrom type fuel a q = some (some (a + (encode A).length), a + (encode (A ++ e :: B)).length) := by
  induction A generalizing a fuel q with
  | nil =>
    obtain ⟨fuel, rfl⟩ := Nat.exists_eq_add_of_le' (Nat.one_le_of_lt hfuel)
    obtain ⟨hstep, hrest, hlen⟩ := findFrom_cons (hclumps e (.head _)) hbytes
    rw [nil_append, hlen] at hend ⊢
    rw [hstep, if_pos htype]
    exact findFrom_of_notMem (fun e' he' => hclumps e' (.tail e he')) hrest hend hno (Nat.lt_of_succ_lt_succ hfuel)
  | cons e' A ih =>
    rw [cons_append] at hclumps hbytes hend hfuel ⊢
    obtain ⟨fuel, rfl⟩ := Nat.exists_eq_add_of_le' (Nat.one_le_of_lt hfuel)
    obtain ⟨hstep, hrest, hlen⟩ := findFrom_cons (hclumps e' (.head _)) hbytes
    rw [hlen] at hend ⊢
    rw [hstep, encode_cons, length_append, ← Nat.add_assoc]
    exact ih (fun e'' he'' => hclumps e'' (.tail e' he'')) hrest hend (Nat.lt_of_succ_lt_succ hfuel)

end HeaderPage

namespace Formed

theorem hdrEnd_lt (hf : Formed h entries) : h.hdrEnd < 2 ^ 16 := Nat.lt_trans hf.inside hf.pageSize

theorem terminated (hf : Formed h entries) :
    cells h.bytes hdrSize (encode entries ++ [0]).length = encode entries ++ [0] := by
  refine cells_eq_append.mpr ⟨hf.bytes, ?_⟩
  rw [← hf.hdrEnd, length_singleton, cells_succ, hf.terminator]
  rfl

theorem of_terminated (hclumps : ∀ e ∈ entries, e.1 ≠ 0 ∧ e.2.length < 2 ^ 8)
    (hbytes : cells h.bytes hdrSize (encode entries ++ [0]).length = encode entries ++ [0])
    (hend : h.hdrEnd = hdrSize + (encode entries).length) (hinside : h.hdrEnd < h.pageSize)
    (hsize : h.pageSize < 2 ^ 16) : Formed h entries := by
  obtain ⟨hlist, hzero⟩ := cells_eq_append.mp hbytes
  refine ⟨hclumps, hlist, ?_, hend, hinside, hsize⟩
  rw [← hend, length_singleton, cells_succ, cons.injEq] at hzero
  exact hzero.1

theorem length_lt (hf : Formed h entries) : entries.length < h.pageSize := by
  have hle := length_le_encode entries
  have hinside := hf.inside
  rw [hf.hdrEnd] at hinside
  omega

theorem find_none (hf : Formed h entries) (hno : ∀ e ∈ entries, e.1.toNat ≠ type) :
    h.find type = some (none, h.hdrEnd) := by
  have hend := hf.terminator
  rw [hf.hdrEnd] at hend
  rw [HeaderPage.find, HeaderPage.findFrom_of_notMem hf.clumps hf.bytes hend hno hf.length_lt, hf.hdrEnd]

theorem find_some (hf : Formed h (A ++ e :: B)) (hno : ∀ e' ∈ B, e'.1.toNat ≠ type) (htype : e.1.toNat = type) :
    h.find type = some (some (hdrSize + (encode A).length), h.hdrEnd) := by
  have hend := hf.terminator
  rw [hf.hdrEnd] at hend
  rw [HeaderPage.find, HeaderPage.findFrom_of_last hf.clumps hf.bytes hend hno htype hf.length_lt, hf.hdrEnd]

end Formed

/-! ### Adding and removing an entry -/

/-- Nothing but the list and `hdr_end` changed. -/
def SameOutside (h h' : HeaderPage) : Prop :=
  h'.pageSize = h.pageSize ∧ ∀ x, x < hdrSize ∨ h.pageSize ≤ x → h'.bytes x = h.bytes x

theorem SameOutside.refl (h : HeaderPage) : SameOutside h h := ⟨rfl, fun _ _ => rfl⟩

theorem SameOutside.trans {h'' : HeaderPage} (hh' : SameOutside h h')
    (hh'' : SameOutside h' h'') : SameOutside h h'' := by
  refine ⟨hh''.1.trans hh'.1, fun x hx => ?_⟩
  rw [hh''.2 x, hh'.2 x hx]
  rw [hh'.1]
  exact hx

theorem length_encode_split (e : Clump) :
    (encode (A ++ e :: B)).length = (encode A).length + (e.2.length + 2) + (encode B).length := by
  rw [encode_append, encode_cons, length_append, length_append, Clump.length_encode]
  omega

theorem store_outside {mem : Nat → UInt8} {a x : Nat} {xs : List UInt8} (ha : hdrSize ≤ a)
    (hend : a + xs.length ≤ h.pageSize) (hx : x < hdrSize ∨ h.pageSize ≤ x) : store mem a xs x = mem x := by
  rcases hx with hx | hx
  · exact store_of_lt (by omega)
  · exact store_of_ge (by omega)

theorem cells_store_append {mem : Nat → UInt8} {a : Nat} {xs ys : List UInt8} (hxs : cells mem a xs.length = xs) :
    cells (store mem (a + xs.length) ys) a (xs ++ ys).length = xs ++ ys := by
  refine cells_eq_append.mpr ⟨?_, cells_store_self _ _ _⟩
  rw [cells_store_of_disjoint (.inl (Nat.le_refl _)), hxs]

namespace Formed

theorem remove (hf : Formed h (A ++ e :: B)) : Formed (h.remove (hdrSize + (encode A).length) h.hdrEnd) (A ++ B) ∧
      SameOutside h (h.remove (hdrSize + (encode A).length) h.hdrEnd) := by
  have hclump : e ∈ A ++ e :: B := mem_append_right A (.head B)
  have hsize := length_encode_split (A := A) (B := B) e
  have hend := hf.hdrEnd
  have hinside := hf.inside
  have hlt := hf.hdrEnd_lt
  -- the bytes of the list, piece by piece
  have hbytes := hf.terminated
  rw [encode_append, encode_cons, append_assoc, append_assoc, cells_eq_append, cells_eq_append] at hbytes
  obtain ⟨hA, he, hB⟩ := hbytes
  obtain ⟨-, hlength, -⟩ := cells_clump he (hf.clumps e hclump).2
  have htail : hdrSize + (encode A).length + e.encode.length =
      hdrSize + (encode A).length + ((h.bytes (hdrSize + (encode A).length + 1)).toNat + 2) := by
    rw [hlength, Clump.length_encode]
  have hshift : ushort (h.hdrEnd - (hdrSize + (encode A).length + ((h.bytes (hdrSize + (encode A).length + 1)).toNat +
      2)) + 1) = (encode B ++ [0]).length := by
    rw [ushort, ushortSize, length_append, length_singleton]
    omega
  have hmoved : (h.remove (hdrSize + (encode A).length) h.hdrEnd).bytes =
      store h.bytes (hdrSize + (encode A).length) (encode B ++ [0]) := by
    simp only [HeaderPage.remove, memmove]
    rw [hshift, ← htail, hB]
  have hends : (h.remove (hdrSize + (encode A).length) h.hdrEnd).hdrEnd = h.hdrEnd - (e.2.length + 2) := by
    simp only [HeaderPage.remove, hlength, ushort, ushortSize]
    omega
  have hAB : (encode (A ++ B)).length = (encode A).length + (encode B).length := by
    rw [encode_append, length_append]
  refine ⟨of_terminated (fun e' he' => hf.clumps e' ?_) ?_ ?_ ?_ hf.pageSize, rfl, fun x hx => ?_⟩
  · rcases mem_append.mp he' with he' | he'
    · exact mem_append_left _ he'
    · exact mem_append_right A (.tail e he')
  · rw [hmoved, encode_append, append_assoc]
    exact cells_store_append hA
  · omega
  · rw [hends]
    exact Nat.lt_of_le_of_lt (Nat.sub_le _ _) hinside
  · rw [hmoved]
    refine store_outside (Nat.le_add_right _ _) ?_ hx
    rw [length_append, length_singleton]
    omega

theorem length_take_data {entry : Option (List UInt8)} (hentry : ∀ d, entry = some d → d.length = len) :
    ((entry.getD (replicate len 0)).take len).length = len := by
  cases entry with
  | none => simp
  | some d => simp [hentry d rfl]

variable {entry : Option (List UInt8)}

theorem clumps_append (hf : Formed h entries) (htype : e.1 ≠ 0) (hlen : e.2.length < 2 ^ 8) :
    ∀ e' ∈ e :: entries, e'.1 ≠ 0 ∧ e'.2.length < 2 ^ 8 := by
  intro e' he'
  rcases mem_cons.mp he' with rfl | he'
  · exact ⟨htype, hlen⟩
  · exact hf.clumps e' he'

theorem add (hf : Formed h entries) (htype : UInt8.ofNat type ≠ 0) (hlen : len < 2 ^ 8)
    (hentry : ∀ d, entry = some d → d.length = len) (hspace : h.checkSpace len = true) (first : Bool) :
    Formed (h.add type len entry first)
      (if first then (UInt8.ofNat type, (entry.getD (replicate len 0)).take len) :: entries
        else entries ++ [(UInt8.ofNat type, (entry.getD (replicate len 0)).take len)]) ∧
      SameOutside h (h.add type len entry first) := by
  generalize hdata : (entry.getD (replicate len 0)).take len = data
  have hlength : data.length = len := by
    rw [← hdata]
    exact length_take_data hentry
  let e : Clump := (UInt8.ofNat type, data)
  have hencode : e.encode = UInt8.ofNat type :: UInt8.ofNat len :: data := by
    rw [← hlength]
    rfl
  have helength : e.encode.length = len + 2 := by rw [Clump.length_encode, ← hlength]
  have hroom : h.hdrEnd + (2 + len) < h.pageSize := by
    rw [HeaderPage.checkSpace, decide_eq_true_eq] at hspace
    exact hspace
  have hsize := hf.pageSize
  have hend := hf.hdrEnd
  have hends : (h.add type len entry first).hdrEnd = h.hdrEnd + (len + 2) := by
    simp only [HeaderPage.add, ushort, ushortSize]
    omega
  cases first with
  | true =>
    have hbytes : (h.add type len entry true).bytes =
        store (store h.bytes (hdrSize + len + 2) (encode entries ++ [0])) hdrSize e.encode := by
      have hcount : h.hdrEnd - hdrSize + 1 = (encode entries ++ [0]).length := by
        rw [length_append, length_singleton]
        omega
      simp only [HeaderPage.add, memmove, hdata, if_true]
      rw [hcount, hf.terminated, hencode]
    rw [if_pos rfl]
    refine ⟨of_terminated (hf.clumps_append htype (by rw [hlength]; exact hlen)) ?_ ?_ ?_ hsize, rfl, fun x hx => ?_⟩
    · rw [hbytes, encode_cons, append_assoc, cells_eq_append]
      refine ⟨cells_store_self _ _ _, ?_⟩
      rw [cells_store_of_disjoint (.inr (Nat.le_refl _))]
      have hplace : hdrSize + e.encode.length = hdrSize + len + 2 := by omega
      rw [hplace]
      exact cells_store_self _ _ _
    · rw [encode_cons, length_append, helength]
      omega
    · exact Nat.lt_of_le_of_lt (by omega) hroom
    · have hfit : hdrSize + e.encode.length ≤ h.pageSize := by omega
      rw [hbytes, store_outside (Nat.le_refl _) hfit hx]
      refine store_outside (by omega) ?_ hx
      rw [length_append, length_singleton]
      omega
  | false =>
    have hbytes : (h.add type len entry false).bytes = store h.bytes (hdrSize + (encode entries).length)
        (e.encode ++ [0]) := by
      simp only [HeaderPage.add, hdata, Bool.false_eq_true, if_false]
      rw [hencode, hend]
    rw [if_neg Bool.false_ne_true]
    refine ⟨of_terminated (fun e' he' => ?_) ?_ ?_ ?_ hsize, rfl, fun x hx => ?_⟩
    · rcases mem_append.mp he' with he' | he'
      · exact hf.clumps e' he'
      · cases mem_singleton.mp he'
        exact ⟨htype, by rw [hlength]; exact hlen⟩
    · have hone : encode [e] = e.encode := append_nil _
      rw [hbytes, encode_append, hone, append_assoc]
      exact cells_store_append hf.bytes
    · have hone : encode [e] = e.encode := append_nil _
      rw [encode_append, hone, length_append]
      omega
    · exact Nat.lt_of_le_of_lt (by omega) hroom
    · rw [hbytes]
      refine store_outside (Nat.le_add_right _ _) ?_ hx
      rw [length_append, length_singleton]
      omega

theorem overwrite {data : List UInt8} (hf : Formed h (A ++ e :: B)) (hdata : data.length = e.2.length) :
    Formed { h with bytes := store h.bytes (hdrSize + (encode A).length + 2) data } (A ++ (e.1, data) :: B) ∧
      SameOutside h { h with bytes := store h.bytes (hdrSize + (encode A).length + 2) data } := by
  have hclump : e ∈ A ++ e :: B := mem_append_right A (.head B)
  have hsize := length_encode_split (A := A) (B := B) e
  have hsame := length_encode_split (A := A) (B := B) (e.1, data)
  have hend := hf.hdrEnd
  have hinside := hf.inside
  have hbytes := hf.terminated
  rw [encode_append, encode_cons, append_assoc, append_assoc, cells_eq_append, cells_eq_append] at hbytes
  obtain ⟨hA, he, hB⟩ := hbytes
  have helength : e.encode.length = data.length + 2 := by rw [Clump.length_encode, hdata]
  refine ⟨of_terminated (fun e' he' => ?_) ?_ ?_ hinside hf.pageSize, rfl, fun x hx => ?_⟩
  · rcases mem_append.mp he' with he' | he'
    · exact hf.clumps e' (mem_append_left _ he')
    · rcases mem_cons.mp he' with rfl | he'
      · exact ⟨(hf.clumps e hclump).1, by rw [hdata]; exact (hf.clumps e hclump).2⟩
      · exact hf.clumps e' (mem_append_right A (.tail e he'))
  · rw [encode_append, encode_cons, append_assoc, append_assoc, cells_eq_append, cells_eq_append]
    refine ⟨?_, ?_, ?_⟩
    · rw [cells_store_of_disjoint (.inl (by omega)), hA]
    · -- the two bytes before the data stay
      obtain ⟨htype, hlength, -⟩ := cells_encode_iff.mp he
      refine cells_encode_iff.mpr ⟨?_, ?_, cells_store_self _ _ _⟩
      · exact (store_of_lt (by omega)).trans htype
      · exact (store_of_lt (by omega)).trans (by rw [hlength, hdata])
    · have hplace : hdrSize + (encode A).length + (Clump.encode (e.1, data)).length =
          hdrSize + (encode A).length + e.encode.length := by
        rw [helength]
        rfl
      rw [hplace, cells_store_of_disjoint (.inr (by omega)), hB]
  · rw [hsame, hdata, ← hsize]
    exact hend
  · refine store_outside (by omega) ?_ hx
    omega

end Formed

def Distinct (entries : List Clump) : Prop := (entries.map Prod.fst).Nodup

def lookup (type : Nat) (entries : List Clump) : Option (List UInt8) :=
  (entries.find? fun e => e.1.toNat = type).map Prod.snd

def others (type : Nat) (entries : List Clump) : List Clump := entries.filter fun e => e.1.toNat ≠ type

namespace ClumpCall

def entryType : ClumpCall → Nat
  | addHeaderEntry type _ _ | replaceEntryFirst type _ _ | deleteClumpEntry type | storeClump type _ _ => type

/-- The data of the type after a call that does not fail, by the data before it. -/
def newValue : ClumpCall → Option (List UInt8) → Option (List UInt8)
  | addHeaderEntry _ len entry, old => old.or (some (entry.getD (replicate len 0)))
  | replaceEntryFirst _ len entry, old =>
    if old.isSome && entry.isNone then none else some (entry.getD (replicate len 0))
  | deleteClumpEntry _, _ => none
  | storeClump _ _ entry, _ => some entry

/-- Once its old entry is gone, an entry of the type has room in the page. -/
def Room (h : HeaderPage) (type len : Nat) : Prop :=
  ∀ p clumpEnd, h.find type = some (some p, clumpEnd) → h.hdrEnd + len < h.pageSize + (h.bytes (p + 1)).toNat

/-- What a call needs: a type and a length that fit into their bytes, data of that length, and room for an entry that is
not overwritten in place. -/
def Meets (h : HeaderPage) : ClumpCall → Prop
  | addHeaderEntry type len entry => (0 < type ∧ type < 2 ^ 8) ∧ len < 2 ^ 8 ∧ ∀ d, entry = some d → d.length = len
  | replaceEntryFirst type len entry =>
    (0 < type ∧ type < 2 ^ 8) ∧ len < 2 ^ 8 ∧ (∀ d, entry = some d → d.length = len) ∧ (entry.isSome → Room h type len)
  | deleteClumpEntry _ => True
  | storeClump type len entry => (0 < type ∧ type < 2 ^ 8) ∧ len < 2 ^ 8 ∧ entry.length = len ∧
    ((∀ p clumpEnd, h.find type = some (some p, clumpEnd) → (h.bytes (p + 1)).toNat ≠ len) → Room h type len)

end ClumpCall

theorem ofNat_ne_zero (htype : 0 < type ∧ type < 2 ^ 8) : UInt8.ofNat type ≠ 0 := by
  intro hzero
  have hvalue := congrArg UInt8.toNat hzero
  rw [UInt8.toNat_ofNat_of_lt' htype.2, UInt8.toNat_zero] at hvalue
  omega

theorem split_type (hdistinct : Distinct entries) (type : Nat) :
    (∀ e ∈ entries, e.1.toNat ≠ type) ∨ ∃ A e B, entries = A ++ e :: B ∧ e.1.toNat = type ∧
      (∀ e' ∈ A, e'.1.toNat ≠ type) ∧ ∀ e' ∈ B, e'.1.toNat ≠ type := by
  by_cases hno : ∀ e ∈ entries, e.1.toNat ≠ type
  · exact .inl hno
  · simp only [not_forall, not_not] at hno
    obtain ⟨e, he, htype⟩ := hno
    obtain ⟨A, B, rfl⟩ := append_of_mem he
    rw [Distinct, map_append, map_cons, nodup_append, nodup_cons] at hdistinct
    obtain ⟨-, ⟨hB, -⟩, hA⟩ := hdistinct
    refine .inr ⟨A, e, B, rfl, htype, fun e' he' heq => ?_, fun e' he' heq => hB ?_⟩
    · exact hA e'.1 (mem_map_of_mem he') e.1 (.head _) (UInt8.toNat_inj.mp (heq.trans htype.symm))
    · rw [UInt8.toNat_inj.mp (htype.trans heq.symm)]
      exact mem_map_of_mem he'

theorem lookup_of_notMem (hno : ∀ e ∈ entries, e.1.toNat ≠ type) : lookup type entries = none := by
  rw [lookup, find?_eq_none.mpr]
  · rfl
  · intro e he
    simpa using hno e he

theorem lookup_split (hA : ∀ e' ∈ A, e'.1.toNat ≠ type) (htype : e.1.toNat = type) :
    lookup type (A ++ e :: B) = some e.2 := by
  have hnone : A.find? (fun e => e.1.toNat = type) = none := by
    rw [find?_eq_none]
    intro e' he'
    simpa using hA e' he'
  rw [lookup, find?_append, hnone, find?_cons_of_pos (by simpa using htype)]
  rfl

theorem others_of_notMem (hno : ∀ e ∈ entries, e.1.toNat ≠ type) : others type entries = entries := by
  rw [others, filter_eq_self]
  intro e he
  simpa using hno e he

theorem others_split (hA : ∀ e' ∈ A, e'.1.toNat ≠ type) (htype : e.1.toNat = type)
    (hB : ∀ e' ∈ B, e'.1.toNat ≠ type) : others type (A ++ e :: B) = A ++ B := by
  have hAs := others_of_notMem hA
  have hBs := others_of_notMem hB
  rw [others] at hAs hBs
  rw [others, filter_append, hAs, filter_cons_of_neg (by simpa using htype), hBs]

theorem Distinct.remove (hdistinct : Distinct (A ++ e :: B)) : Distinct (A ++ B) := by
  refine Nodup.sublist ?_ hdistinct
  exact ((Sublist.refl A).append (sublist_cons_self e B)).map _

theorem Distinct.cons (hdistinct : Distinct entries) (hno : ∀ e' ∈ entries, e'.1.toNat ≠ e.1.toNat) :
    Distinct (e :: entries) := by
  rw [Distinct, map_cons, nodup_cons]
  refine ⟨fun hmem => ?_, hdistinct⟩
  obtain ⟨e', he', heq⟩ := mem_map.mp hmem
  exact hno e' he' (by rw [heq])

theorem Distinct.concat (hdistinct : Distinct entries) (hno : ∀ e' ∈ entries, e'.1.toNat ≠ e.1.toNat) :
    Distinct (entries ++ [e]) := by
  have hcons := hdistinct.cons hno
  rw [Distinct, map_append]
  exact nodup_append_comm.mp hcons

/-! ### The calls -/

/-- What a call made of a page with the entries: the entry of its own type is as the call says and the others as they
    were, or the call failed and the page is as it was. -/
structure Called (h : HeaderPage) (entries : List Clump) (type : Nat)
    (newValue : Option (List UInt8) → Option (List UInt8)) (h' : HeaderPage) (outcome : ClumpOutcome) : Prop where
  formed : ∃ entries', Formed h' entries' ∧ Distinct entries' ∧ others type entries' = others type entries ∧
    (outcome.failed = false → lookup type entries' = newValue (lookup type entries))
  outside : SameOutside h h'
  unchanged : outcome.failed = true → h' = h

namespace Called

variable {newValue : Option (List UInt8) → Option (List UInt8)} {entry : Option (List UInt8)}

theorem refl (hf : Formed h entries) (hdistinct : Distinct entries) {outcome : ClumpOutcome}
    (hvalue : outcome.failed = false → lookup type entries = newValue (lookup type entries)) :
    Called h entries type newValue h outcome :=
  ⟨⟨entries, hf, hdistinct, rfl, hvalue⟩, .refl h, fun _ => rfl⟩

theorem add (hf : Formed h entries) (hdistinct : Distinct entries) (hno : ∀ e ∈ entries, e.1.toNat ≠ type)
    (htype : 0 < type ∧ type < 2 ^ 8) (hlen : len < 2 ^ 8) (hentry : ∀ d, entry = some d → d.length = len)
    (hspace : h.checkSpace len = true) (first modified : Bool) {rest : List Clump} {old : HeaderPage}
    (hout : SameOutside old h) (hrest : others type rest = entries)
    (hvalue : some (entry.getD (replicate len 0)) = newValue (lookup type rest)) :
    Called old rest type newValue (h.add type len entry first) (.done modified) := by
  obtain ⟨hadded, hsame⟩ := hf.add (ofNat_ne_zero htype) hlen hentry hspace first
  have hdata : (entry.getD (replicate len 0)).take len = entry.getD (replicate len 0) := by
    refine take_of_length_le ?_
    cases entry with
    | none => simp
    | some d => exact Nat.le_of_eq (hentry d rfl)
  rw [hdata] at hadded
  have hbyte : (UInt8.ofNat type).toNat = type := UInt8.toNat_ofNat_of_lt' htype.2
  have hnoByte : ∀ e' ∈ entries, e'.1.toNat ≠ (UInt8.ofNat type).toNat := by
    rw [hbyte]
    exact hno
  refine ⟨⟨_, hadded, ?_, ?_, fun _ => ?_⟩, hout.trans hsame, ?_⟩
  · cases first with
    | true => exact hdistinct.cons hnoByte
    | false => exact hdistinct.concat hnoByte
  · rw [hrest]
    cases first with
    | true => exact others_split (A := []) (by simp) hbyte hno
    | false => exact (others_split hno hbyte (by simp)).trans (append_nil _)
  · rw [← hvalue]
    cases first with
    | true => exact lookup_split (A := []) (by simp) hbyte
    | false => exact lookup_split hno hbyte
  · rintro ⟨⟩

theorem remove (hf : Formed h (A ++ e :: B)) (hdistinct : Distinct (A ++ e :: B)) (htype : e.1.toNat = type)
    (hA : ∀ e' ∈ A, e'.1.toNat ≠ type) (hB : ∀ e' ∈ B, e'.1.toNat ≠ type) (modified : Bool)
    (hvalue : none = newValue (lookup type (A ++ e :: B))) :
    Called h (A ++ e :: B) type newValue (h.remove (hdrSize + (encode A).length) h.hdrEnd) (.done modified) := by
  obtain ⟨hremoved, hsame⟩ := hf.remove
  have hno : ∀ e' ∈ A ++ B, e'.1.toNat ≠ type := fun e' he' => (mem_append.mp he').elim (hA e') (hB e')
  refine ⟨⟨A ++ B, hremoved, hdistinct.remove, ?_, fun _ => ?_⟩, hsame, ?_⟩
  · rw [others_split hA htype hB]
    exact others_of_notMem hno
  · rw [lookup_of_notMem hno]
    exact hvalue
  · rintro ⟨⟩

end Called

section Calls

variable {entry : Option (List UInt8)}

section
variable {e : Clump} (hf : Formed h (A ++ e :: B))
include hf

theorem Formed.length_byte : (h.bytes (hdrSize + (encode A).length + 1)).toNat = e.2.length := by
  have hbytes := hf.bytes
  rw [encode_append, encode_cons, cells_eq_append, cells_eq_append] at hbytes
  exact (cells_clump hbytes.2.1 (hf.clumps e (mem_append_right A (.head B))).2).2.1

theorem Formed.hdrEnd_remove :
    (h.remove (hdrSize + (encode A).length) h.hdrEnd).hdrEnd + (e.2.length + 2) = h.hdrEnd := by
  have hsize := length_encode_split (A := A) (B := B) e
  have hend := hf.hdrEnd
  have hremoved := hf.remove.1.hdrEnd
  rw [encode_append, length_append] at hremoved
  omega

theorem Formed.checkSpace_remove (htype : e.1.toNat = type)
    (hB : ∀ e' ∈ B, e'.1.toNat ≠ type) (hroom : ClumpCall.Room h type len) :
    (h.remove (hdrSize + (encode A).length) h.hdrEnd).checkSpace len = true := by
  have hspace := hroom _ _ (hf.find_some hB htype)
  rw [hf.length_byte] at hspace
  have hend := hf.hdrEnd_remove
  have hsize := hf.remove.2.1
  rw [HeaderPage.checkSpace, decide_eq_true_eq]
  omega

end

section
variable (hf : Formed h entries) (hdistinct : Distinct entries)
include hf hdistinct

theorem addHeaderEntry_called (hmeets : (ClumpCall.addHeaderEntry type len entry).Meets h) :
    ∃ h' outcome, h.addHeaderEntry type len entry = some (h', outcome) ∧
      Called h entries type (ClumpCall.addHeaderEntry type len entry).newValue h' outcome := by
  obtain ⟨htype, hlen, hentry⟩ := hmeets
  rcases split_type hdistinct type with hno | ⟨A, e, B, rfl, he, hA, hB⟩
  · rw [HeaderPage.addHeaderEntry, hf.find_none hno]
    by_cases hspace : h.checkSpace len = true
    · rw [if_pos hspace]
      refine ⟨_, _, rfl, Called.add hf hdistinct hno htype hlen hentry hspace false true (.refl h)
        (others_of_notMem hno) ?_⟩
      rw [lookup_of_notMem hno]
      rfl
    · rw [if_neg hspace]
      exact ⟨_, _, rfl, .refl hf hdistinct (by rintro ⟨⟩)⟩
  · rw [HeaderPage.addHeaderEntry, hf.find_some hB he]
    refine ⟨_, _, rfl, .refl hf hdistinct fun _ => ?_⟩
    rw [lookup_split hA he]
    rfl

theorem replaceEntryFirst_called (hmeets : (ClumpCall.replaceEntryFirst type len entry).Meets h) :
    ∃ h' outcome, h.replaceEntryFirst type len entry = some (h', outcome) ∧
      Called h entries type (ClumpCall.replaceEntryFirst type len entry).newValue h' outcome := by
  obtain ⟨htype, hlen, hentry, hroom⟩ := hmeets
  rcases split_type hdistinct type with hno | ⟨A, e, B, rfl, he, hA, hB⟩
  · rw [HeaderPage.replaceEntryFirst, hf.find_none hno]
    simp only
    by_cases hspace : h.checkSpace len = true
    · rw [if_pos hspace]
      refine ⟨_, _, rfl, Called.add hf hdistinct hno htype hlen hentry hspace true true (.refl h)
        (others_of_notMem hno) ?_⟩
      rw [lookup_of_notMem hno]
      rfl
    · rw [if_neg hspace]
      exact ⟨_, _, rfl, .refl hf hdistinct (by rintro ⟨⟩)⟩
  · obtain ⟨hremoved, hsame⟩ := hf.remove
    rw [HeaderPage.replaceEntryFirst, hf.find_some hB he]
    simp only
    cases hnull : entry with
    | none =>
      refine ⟨_, _, rfl, .remove hf hdistinct he hA hB false ?_⟩
      rw [lookup_split hA he]
      rfl
    | some d =>
      have hspace := hf.checkSpace_remove he hB (hroom (by rw [hnull]; rfl))
      rw [Option.isNone_some, if_pos hspace]
      have hno : ∀ e' ∈ A ++ B, e'.1.toNat ≠ type := fun e' he' => (mem_append.mp he').elim (hA e') (hB e')
      refine ⟨_, _, rfl, Called.add hremoved hdistinct.remove hno htype hlen (fun d' hd' => hentry d' (hnull.trans hd'))
        hspace true true hsame (others_split hA he hB) ?_⟩
      rw [lookup_split hA he]
      rfl

theorem deleteClumpEntry_called (type : Nat) :
    ∃ h' outcome, h.deleteClumpEntry type = some (h', outcome) ∧
      Called h entries type (ClumpCall.deleteClumpEntry type).newValue h' outcome := by
  rcases split_type hdistinct type with hno | ⟨A, e, B, rfl, he, hA, hB⟩
  · rw [HeaderPage.deleteClumpEntry, hf.find_none hno]
    refine ⟨_, _, rfl, .refl hf hdistinct fun _ => ?_⟩
    rw [lookup_of_notMem hno]
    rfl
  · rw [HeaderPage.deleteClumpEntry, hf.find_some hB he]
    exact ⟨_, _, rfl, .remove hf hdistinct he hA hB true rfl⟩

end

theorem storeClump_called {data : List UInt8} (hf : Formed h entries) (hdistinct : Distinct entries)
    (hmeets : (ClumpCall.storeClump type len data).Meets h) :
    ∃ h' outcome, h.storeClump type len data = some (h', outcome) ∧
      Called h entries type (ClumpCall.storeClump type len data).newValue h' outcome := by
  obtain ⟨htype, hlen, hdata, hroom⟩ := hmeets
  have hentry : ∀ d, some data = some d → d.length = len := by
    rintro d ⟨⟩
    exact hdata
  rcases split_type hdistinct type with hno | ⟨A, e, B, rfl, he, hA, hB⟩
  · rw [HeaderPage.storeClump, hf.find_none hno]
    simp only
    by_cases hspace : h.checkSpace len = true
    · rw [if_pos hspace]
      exact ⟨_, _, rfl, Called.add hf hdistinct hno htype hlen hentry hspace false true (.refl h)
        (others_of_notMem hno) rfl⟩
    · rw [if_neg hspace]
      exact ⟨_, _, rfl, .refl hf hdistinct (by rintro ⟨⟩)⟩
  · rw [HeaderPage.storeClump, hf.find_some hB he]
    simp only
    by_cases hsize : (h.bytes (hdrSize + (encode A).length + 1)).toNat = len
    · -- the same size
      have htake : data.take len = data := take_of_length_le (Nat.le_of_eq hdata)
      have hlength : data.length = e.2.length := by rw [hdata, ← hsize, hf.length_byte]
      obtain ⟨hformed, hsame⟩ := hf.overwrite hlength
      rw [if_pos hsize, htake]
      refine ⟨_, _, rfl, ⟨_, hformed, ?_, ?_, fun _ => ?_⟩, hsame, by rintro ⟨⟩⟩
      · rw [Distinct, map_append] at hdistinct ⊢
        exact hdistinct
      · rw [others_split hA he hB]
        exact others_split hA he hB
      · exact lookup_split hA he
    · obtain ⟨hremoved, hsame⟩ := hf.remove
      have hne : ∀ p clumpEnd, h.find type = some (some p, clumpEnd) → (h.bytes (p + 1)).toNat ≠ len := by
        intro p clumpEnd hfind
        rw [hf.find_some hB he, Option.some.injEq, Prod.mk.injEq, Option.some.injEq] at hfind
        rw [← hfind.1]
        exact hsize
      have hspace := hf.checkSpace_remove he hB (hroom hne)
      rw [if_neg hsize, if_pos hspace]
      have hno : ∀ e' ∈ A ++ B, e'.1.toNat ≠ type := fun e' he' => (mem_append.mp he').elim (hA e') (hB e')
      exact ⟨_, _, rfl, Called.add hremoved hdistinct.remove hno htype hlen hentry hspace false true hsame
        (others_split hA he hB) rfl⟩

theorem call_called (hf : Formed h entries) (hdistinct : Distinct entries) (readOnly : Bool)
    {c : ClumpCall} (hmeets : c.Meets h) :
    ∃ h' outcome, h.call readOnly c = some (h', outcome) ∧ Called h entries c.entryType c.newValue h' outcome := by
  cases readOnly with
  | true => exact ⟨h, .readOnly, rfl, .refl hf hdistinct (by rintro ⟨⟩)⟩
  | false =>
    cases c with
    | addHeaderEntry type len entry => exact addHeaderEntry_called hf hdistinct hmeets
    | replaceEntryFirst type len entry => exact replaceEntryFirst_called hf hdistinct hmeets
    | deleteClumpEntry type => exact deleteClumpEntry_called hf hdistinct type
    | storeClump type len entry => exact storeClump_called hf hdistinct hmeets

end Calls

def ClumpStep (h : HeaderPage) (c : Bool × ClumpCall) (h' : HeaderPage) : Prop :=
  c.2.Meets h ∧ ∃ outcome, h.call c.1 c.2 = some (h', outcome)

/-- In every run of such calls the page holds a list with each type at most once, and the next such call changes the
entry of its type and no other, or fails and changes nothing. -/
theorem header_entries {calls : List (Bool × ClumpCall)} (hf : Formed h entries) (hdistinct : Distinct entries)
    (hrun : Run ClumpStep h calls h') :
    ∃ entries', Formed h' entries' ∧ Distinct entries' ∧ SameOutside h h' ∧ ∀ readOnly c, c.Meets h' →
      ∃ h'' outcome, h'.call readOnly c = some (h'', outcome) ∧
      Called h' entries' c.entryType c.newValue h'' outcome := by
  have hkeep : ∀ (g : HeaderPage) (c : Bool × ClumpCall) (g' : HeaderPage),
      (∃ entries', Formed g entries' ∧ Distinct entries' ∧ SameOutside h g) → ClumpStep g c g' →
      ∃ entries', Formed g' entries' ∧ Distinct entries' ∧ SameOutside h g' := by
    rintro g c g' ⟨entries', hg, hgdistinct, hsame⟩ ⟨hmeets, outcome, hcall⟩
    obtain ⟨g'', outcome', hcall', hcalled⟩ := call_called hg hgdistinct c.1 hmeets
    rw [hcall] at hcall'
    cases hcall'
    obtain ⟨entries'', hformed, hdistinct', -⟩ := hcalled.formed
    exact ⟨entries'', hformed, hdistinct', hsame.trans hcalled.outside⟩
  obtain ⟨entries', hf', hdistinct', hsame⟩ := hrun.invariant hkeep ⟨entries, hf, hdistinct, .refl h⟩
  exact ⟨entries', hf', hdistinct', hsame, fun readOnly c hmeets => call_called hf' hdistinct' readOnly hmeets⟩

section Overflow

variable {e : Clump}

theorem Formed.remove_ne (hf : Formed h (A ++ e :: B)) : h.remove (hdrSize + (encode A).length) h.hdrEnd ≠ h := by
  intro heq
  have hend := hf.hdrEnd_remove
  rw [heq] at hend
  omega

theorem Formed.checkSpace_full (hf : Formed h (A ++ e :: B)) (hfull : h.pageSize + e.2.length ≤ h.hdrEnd + len) :
    ¬(h.remove (hdrSize + (encode A).length) h.hdrEnd).checkSpace len = true := by
  have hend := hf.hdrEnd_remove
  have hsize := hf.remove.2.1
  rw [HeaderPage.checkSpace, decide_eq_true_eq]
  omega

theorem storeClump_overflow (len : Nat) (hf : Formed h (A ++ e :: B)) (hB : ∀ e' ∈ B, e'.1.toNat ≠ type)
    (htype : e.1.toNat = type)
    (hne : e.2.length ≠ len) (hfull : h.pageSize + e.2.length ≤ h.hdrEnd + len) (data : List UInt8) :
    ∃ h', h.call false (.storeClump type len data) = some (h', .overflow) ∧ h' ≠ h := by
  refine ⟨_, ?_, hf.remove_ne⟩
  have hsize : ¬(h.bytes (hdrSize + (encode A).length + 1)).toNat = len := by
    rw [hf.length_byte]
    exact hne
  rw [HeaderPage.call, if_neg Bool.false_ne_true, HeaderPage.storeClump, hf.find_some hB htype]
  simp only
  rw [if_neg hsize, if_neg (hf.checkSpace_full hfull)]

theorem replaceEntryFirst_bugcheck (len : Nat) (hf : Formed h (A ++ e :: B)) (hB : ∀ e' ∈ B, e'.1.toNat ≠ type)
    (htype : e.1.toNat = type) (hfull : h.pageSize + e.2.length ≤ h.hdrEnd + len) (data : List UInt8) :
    ∃ h', h.call false (.replaceEntryFirst type len (some data)) = some (h', .bugcheck) ∧ h' ≠ h := by
  refine ⟨_, ?_, hf.remove_ne⟩
  rw [HeaderPage.call, if_neg Bool.false_ne_true, HeaderPage.replaceEntryFirst, hf.find_some hB htype]
  simp only
  rw [Option.isNone_some, if_neg Bool.false_ne_true, if_neg (hf.checkSpace_full hfull)]

end Overflow

def HeaderPage.ofClumps (pageSize : Nat) (entries : List Clump) : HeaderPage where
  pageSize
  hdrEnd := hdrSize + (encode entries).length
  bytes := store (fun _ => 0) hdrSize (encode entries)

theorem formed_ofClumps {pageSize : Nat} (hclumps : ∀ e ∈ entries, e.1 ≠ 0 ∧ e.2.length < 2 ^ 8)
    (hinside : hdrSize + (encode entries).length < pageSize) (hsize : pageSize < 2 ^ 16) :
    Formed (.ofClumps pageSize entries) entries := by
  have hzero : store (fun _ => (0 : UInt8)) hdrSize (encode entries) (hdrSize + (encode entries).length) = 0 :=
    store_of_ge (Nat.le_refl _)
  exact ⟨hclumps, cells_store_self _ _ _, hzero, rfl, hinside, hsize⟩

theorem length_encode_of_length {n : Nat} (hlength : ∀ e ∈ entries, e.2.length = n) :
    (encode entries).length = entries.length * (n + 2) := by
  induction entries with
  | nil => exact (Nat.zero_mul _).symm
  | cons e entries ih =>
    rw [encode_cons, length_append, Clump.length_encode, hlength e (.head _), ih fun e' he' => hlength e' (.tail e he'),
      length_cons, Nat.succ_mul, Nat.add_comm]

def filler : List Clump := (range 31).map fun i => (UInt8.ofNat (20 + i), replicate 255 0)

/-- A sweep interval of one byte, a name of the difference file, and entries that fill the page but for three bytes. -/
def fullClumps : List Clump := (4, [1]) :: (6, replicate 69 65) :: filler

theorem filler_type (he : e ∈ filler) : 20 ≤ e.1.toNat ∧ e.2.length = 255 := by
  obtain ⟨i, hi, rfl⟩ := mem_map.mp he
  rw [mem_range] at hi
  have hlt : 20 + i < 2 ^ 8 := by omega
  have hbyte : (UInt8.ofNat (20 + i)).toNat = 20 + i := UInt8.toNat_ofNat_of_lt' hlt
  refine ⟨?_, length_replicate⟩
  rw [hbyte]
  exact Nat.le_add_right 20 i

theorem length_fullClumps : (encode fullClumps).length = 8041 := by
  have hfiller : (encode filler).length = 31 * 257 := by
    rw [length_encode_of_length fun e he => (filler_type he).2, filler, length_map, length_range]
  rw [fullClumps, encode_cons, encode_cons, length_append, length_append, hfiller,
    Clump.length_encode, Clump.length_encode]
  rfl

theorem formed_fullClumps : Formed (.ofClumps 8192 fullClumps) fullClumps := by
  refine formed_ofClumps (fun e he => ?_) ?_ (by decide)
  · rw [fullClumps, mem_cons, mem_cons] at he
    rcases he with rfl | rfl | he
    · exact ⟨by decide, by decide⟩
    · exact ⟨by decide, by decide⟩
    · obtain ⟨htype, hlength⟩ := filler_type he
      refine ⟨fun hzero => ?_, by rw [hlength]; decide⟩
      rw [hzero] at htype
      cases htype
  · rw [length_fullClumps]
    decide

theorem distinct_fullClumps : Distinct fullClumps := by
  simp only [Distinct, fullClumps, filler, map_cons, map_map]
  decide

/-- A sweep interval of another length, or another name of the difference file, is refused, and the old one is gone. -/
theorem header_entries_lost : ∃ h h₁ h₂ entries, Formed h entries ∧ Distinct entries ∧
    (h.call false (.storeClump 4 4 [0, 0, 0, 0]) = some (h₁, .overflow) ∧ h₁ ≠ h) ∧
    h.call false (.replaceEntryFirst 6 100 (some (replicate 100 66))) = some (h₂, .bugcheck) ∧ h₂ ≠ h := by
  have hf := formed_fullClumps
  have hend : (HeaderPage.ofClumps 8192 fullClumps).hdrEnd = 8189 := by
    rw [hf.hdrEnd, length_fullClumps]
    rfl
  have hfirst : Formed (.ofClumps 8192 fullClumps) ([] ++ (4, [1]) :: (6, replicate 69 65) :: filler) := hf
  have hsecond : Formed (.ofClumps 8192 fullClumps) ([(4, [1])] ++ (6, replicate 69 65) :: filler) := hf
  have hno : ∀ e ∈ filler, e.1.toNat ≠ 6 := by
    intro e he heq
    have htype := (filler_type he).1
    omega
  have hnoFirst : ∀ e ∈ (6, replicate 69 65) :: filler, e.1.toNat ≠ 4 := by
    intro e he heq
    rcases mem_cons.mp he with rfl | he
    · cases heq
    · have htype := (filler_type he).1
      omega
  obtain ⟨h₁, hcall₁, hne₁⟩ := storeClump_overflow 4 hfirst hnoFirst rfl (by decide) (by rw [hend]; decide) [0, 0, 0, 0]
  obtain ⟨h₂, hcall₂, hne₂⟩ := replaceEntryFirst_bugcheck 100 hsecond hno rfl
    (by rw [hend]; decide) (replicate 100 66)
  exact ⟨_, h₁, h₂, fullClumps, hf, distinct_fullClumps, ⟨hcall₁, hne₁⟩, hcall₂, hne₂⟩

/-- A page with a sweep interval of one byte and a name of the difference file. -/
def shortPage : HeaderPage := .ofClumps 1024 [(4, [1]), (6, [65, 66])]

def HeaderPage.afterCalls : HeaderPage → List ClumpCall → HeaderPage
  | h, [] => h
  | h, c :: calls => ((h.call false c).elim h Prod.fst).afterCalls calls

/-- An entry is added, the sweep interval gets another length and the difference file another name, and the entry is
deleted. -/
def rewriting : List ClumpCall :=
  [.addHeaderEntry 5 3 (some [7, 8, 9]), .storeClump 4 4 [0, 0, 1, 0], .replaceEntryFirst 6 3 (some [67, 68, 69]),
    .deleteClumpEntry 5]

theorem header_entries_rewriting : ∃ entries', Formed (shortPage.afterCalls rewriting) entries' ∧
    Distinct entries' := by
  have hformed : Formed shortPage [(4, [1]), (6, [65, 66])] := by
    refine formed_ofClumps (fun e he => ?_) (by decide) (by decide)
    revert e
    decide
  have hdistinct : Distinct [(4, [1]), (6, [65, 66])] := by
    unfold Distinct
    decide
  have hrun : Run ClumpStep shortPage (rewriting.map fun c => (false, c)) (shortPage.afterCalls rewriting) := by
    refine .cons (t := shortPage.afterCalls (rewriting.take 1)) ⟨?_, .done true, rfl⟩
      (.cons (t := shortPage.afterCalls (rewriting.take 2)) ⟨?_, .done true, rfl⟩
        (.cons (t := shortPage.afterCalls (rewriting.take 3)) ⟨?_, .done true, rfl⟩
          (.single ⟨trivial, .done true, rfl⟩)))
    · refine ⟨by decide, by decide, fun d hd => ?_⟩
      cases hd
      rfl
    · refine ⟨by decide, by decide, rfl, fun _ p clumpEnd hfind => ?_⟩
      have hfirst : (shortPage.afterCalls (rewriting.take 1)).find 4 = some (some 148, 160) := rfl
      rw [hfirst] at hfind
      cases hfind
      decide
    · refine ⟨by decide, by decide, fun d hd => ?_, fun _ p clumpEnd hfind => ?_⟩
      · cases hd
        rfl
      · have hname : (shortPage.afterCalls (rewriting.take 2)).find 6 = some (some 148, 163) := rfl
        rw [hname] at hfind
        cases hfind
        decide
  obtain ⟨entries', hf, hkept, -⟩ := header_entries hformed hdistinct hrun
  exact ⟨entries', hf, hkept⟩

end Firebird.Pag
