import Mathlib.Data.List.GetD
import Mathlib.Tactic.Linarith
import NexFi.AlfredPacket
import NexFi.ChainTable

/-!
# The data sets of a node

A data set has a source and a type, and a node keeps one for each pair of them.
What a node learns from others never replaces what its own clients handed over.
To push data is to fill packets with blocks, one packet after the other.
-/

namespace NexFi.AlfredData
open AlfredPacket ChainTable

section Time

structure Timespec where
  tvSec : ℤ
  tvNsec : ℤ
deriving DecidableEq

def timeDiff (tv1 tv2 : Timespec) : Timespec :=
  if tv1.tvNsec < tv2.tvNsec then
    ⟨tv1.tvSec - tv2.tvSec - 1, 1000000000 + tv1.tvNsec - tv2.tvNsec⟩
  else ⟨tv1.tvSec - tv2.tvSec, tv1.tvNsec - tv2.tvNsec⟩

namespace Timespec

def Valid (t : Timespec) : Prop := 0 ≤ t.tvNsec ∧ t.tvNsec < 1000000000

def nanos (t : Timespec) : ℤ := 1000000000 * t.tvSec + t.tvNsec

end Timespec

/-- A difference has this many seconds when that much time has gone by. -/
theorem tvSec_timeDiff_lt {tv1 tv2 : Timespec} (h1 : tv1.Valid) (h2 : tv2.Valid) (seconds : ℤ) :
    (timeDiff tv1 tv2).tvSec < seconds ↔ tv1.nanos < tv2.nanos + 1000000000 * seconds := by
  obtain ⟨h1, h1'⟩ := h1
  obtain ⟨h2, h2'⟩ := h2
  simp only [timeDiff, Timespec.nanos]
  split_ifs with hlt <;> dsimp only <;> omega

end Time

section Hash

def mix (hash k : UInt32) : UInt32 :=
  let hash := hash + k
  let hash := hash + hash <<< 10
  hash ^^^ hash >>> 6

def jenkins (key : List UInt32) : UInt32 :=
  let hash := key.foldl mix 0
  let hash := hash + hash <<< 3
  let hash := hash ^^^ hash >>> 11
  hash + hash <<< 15

def bucket (size : ℕ) (h : 0 < size) (key : List UInt32) : Fin size :=
  ⟨(jenkins key).toNat % size, Nat.mod_lt _ h⟩

end Hash

inductive DataSource
  | sourceLocal
  | sourceFirstHand
  | sourceSynced
deriving DecidableEq

def DataSource.level : DataSource → ℕ
  | sourceLocal => 0
  | sourceFirstHand => 1
  | sourceSynced => 2

structure Dataset where
  data : Block
  lastSeen : Timespec
  dataSource : DataSource
deriving DecidableEq

abbrev DataKey := EtherAddr × UInt8

def blockKey (b : Block) : DataKey := (b.source, b.type)

def dataHashing : Hashing DataKey Dataset where
  key := fun d => blockKey d.data
  size := 128
  choose := fun k => bucket 128 (by decide) ((k.1.octets ++ [k.2]).map UInt8.toUInt32)

abbrev DataHash := Table dataHashing

section Merge

/-- The source of a block that `mac` sends. -/
def sourceFrom (mac : EtherAddr) (b : Block) : DataSource :=
  if mac = b.source then .sourceFirstHand else .sourceSynced

/-- One block of a transaction, and whether its data are new. -/
def mergeBlock (now : Timespec) (mac : EtherAddr) (hash : DataHash) (b : Block) : DataHash × Bool :=
  match hash.find (blockKey b) with
  | none => (hash.put ⟨b, now, sourceFrom mac b⟩, true)
  | some d =>
    if d.dataSource = .sourceLocal then (hash, false)
    else (hash.put ⟨b, now, sourceFrom mac b⟩, d.data.data ≠ b.data)

def mergeBlocks (now : Timespec) (mac : EtherAddr) (hash : DataHash) (bs : List Block) : DataHash :=
  bs.foldl (fun hash b => (mergeBlock now mac hash b).1) hash

variable {now : Timespec} {mac : EtherAddr} {hash : DataHash}

theorem find_mergeBlock (b : Block) (k : DataKey) :
    (mergeBlock now mac hash b).1.find k =
      if blockKey b = k ∧ ∀ d, hash.find k = some d → d.dataSource ≠ .sourceLocal then
        some ⟨b, now, sourceFrom mac b⟩ else hash.find k := by
  have hput : (hash.put ⟨b, now, sourceFrom mac b⟩).find k =
      if blockKey b = k then some ⟨b, now, sourceFrom mac b⟩ else hash.find k :=
    hash.find_put ⟨b, now, sourceFrom mac b⟩ k
  by_cases hk : blockKey b = k
  · subst hk
    cases hfind : hash.find (blockKey b) with
    | none =>
      rw [if_pos rfl] at hput
      simp [mergeBlock, hfind, hput]
    | some d =>
      by_cases hlocal : d.dataSource = .sourceLocal
      · simp [mergeBlock, hfind, hlocal]
      · rw [if_pos rfl] at hput
        simp [mergeBlock, hfind, hlocal, hput]
  · rw [if_neg hk] at hput
    rw [if_neg fun h => hk h.1, mergeBlock]
    cases hash.find (blockKey b) with
    | none => exact hput
    | some d =>
      by_cases hlocal : d.dataSource = .sourceLocal
      · simp only [if_pos hlocal]
      · simp only [if_neg hlocal]
        exact hput

theorem mergeBlocks_cons (b : Block) (bs : List Block) :
    mergeBlocks now mac hash (b :: bs) = mergeBlocks now mac (mergeBlock now mac hash b).1 bs := rfl

theorem mergeBlocks_append (bs bs' : List Block) :
    mergeBlocks now mac hash (bs ++ bs') = mergeBlocks now mac (mergeBlocks now mac hash bs) bs' :=
  List.foldl_append

theorem find_mergeBlocks_of_notMem {bs : List Block} {k : DataKey} (h : k ∉ bs.map blockKey) :
    (mergeBlocks now mac hash bs).find k = hash.find k := by
  induction bs generalizing hash with
  | nil => rfl
  | cons b bs ih =>
    rw [List.map_cons, List.mem_cons, not_or] at h
    rw [mergeBlocks_cons, ih h.2, find_mergeBlock, if_neg fun hb => h.1 hb.1.symm]

/-- What a client of the node handed over stays. -/
theorem find_mergeBlocks_local {bs : List Block} {k : DataKey} {d : Dataset}
    (hfind : hash.find k = some d) (hlocal : d.dataSource = .sourceLocal) :
    (mergeBlocks now mac hash bs).find k = some d := by
  induction bs generalizing hash with
  | nil => exact hfind
  | cons b bs ih =>
    rw [mergeBlocks_cons]
    refine ih ?_
    rw [find_mergeBlock, if_neg fun hb => hb.2 d hfind hlocal, hfind]

theorem find_mergeBlocks_of_mem {bs : List Block} (hnodup : (bs.map blockKey).Nodup) {b : Block}
    (hb : b ∈ bs)
    (hlocal : ∀ d, hash.find (blockKey b) = some d → d.dataSource ≠ .sourceLocal) :
    (mergeBlocks now mac hash bs).find (blockKey b) = some ⟨b, now, sourceFrom mac b⟩ := by
  induction bs generalizing hash with
  | nil => cases hb
  | cons c bs ih =>
    rw [List.map_cons, List.nodup_cons] at hnodup
    rw [mergeBlocks_cons]
    rcases List.mem_cons.mp hb with rfl | hb
    · rw [find_mergeBlocks_of_notMem hnodup.1, find_mergeBlock, if_pos ⟨rfl, hlocal⟩]
    · have hne : blockKey c ≠ blockKey b := fun heq =>
        hnodup.1 (heq ▸ List.mem_map_of_mem hb)
      refine ih hnodup.2 hb ?_
      rwa [find_mergeBlock, if_neg fun h => hne h.1]

/-- Blocks of different keys may be merged in any order. -/
theorem find_mergeBlocks_perm {bs bs' : List Block} (hnodup : (bs.map blockKey).Nodup)
    (h : bs.Perm bs') (k : DataKey) :
    (mergeBlocks now mac hash bs).find k = (mergeBlocks now mac hash bs').find k := by
  by_cases hk : k ∈ bs.map blockKey
  · obtain ⟨b, hb, rfl⟩ := List.mem_map.mp hk
    cases hfind : hash.find (blockKey b) with
    | none =>
      have hlocal : ∀ d, hash.find (blockKey b) = some d → d.dataSource ≠ .sourceLocal := by
        intro d hd
        rw [hfind] at hd
        cases hd
      rw [find_mergeBlocks_of_mem hnodup hb hlocal,
        find_mergeBlocks_of_mem ((h.map blockKey).nodup_iff.mp hnodup) (h.mem_iff.mp hb) hlocal]
    | some d =>
      by_cases hd : d.dataSource = .sourceLocal
      · rw [find_mergeBlocks_local hfind hd, find_mergeBlocks_local hfind hd]
      · have hlocal : ∀ d', hash.find (blockKey b) = some d' → d'.dataSource ≠ .sourceLocal := by
          intro d' hd'
          rw [hfind, Option.some_inj] at hd'
          exact hd' ▸ hd
        rw [find_mergeBlocks_of_mem hnodup hb hlocal,
          find_mergeBlocks_of_mem ((h.map blockKey).nodup_iff.mp hnodup) (h.mem_iff.mp hb) hlocal]
  · rw [find_mergeBlocks_of_notMem hk, find_mergeBlocks_of_notMem]
    rwa [← (h.map blockKey).mem_iff]

end Merge

section Push

def maxPayload : ℕ := 65527

/-- What a packet holds besides its two headers. -/
def room : ℕ := maxPayload - 8

def total (bs : List Block) : ℕ := (bs.map Block.size).sum

/-- The packet that is filled, the next sequence number, and what is sent. -/
structure Aggregate where
  blocks : List Block
  seqno : UInt16
  sent : List (List UInt8)

variable (id : UInt16)

def flush (a : Aggregate) : Aggregate :=
  ⟨[], a.seqno + 1, a.sent ++ [pushPacket id a.seqno (a.blocks.flatMap Block.bytes)]⟩

def aggregate (a : Aggregate) (b : Block) : Aggregate :=
  if room < total a.blocks + b.size then
    if total a.blocks = 0 then a
    else
      let a := flush id a
      if room < total a.blocks + b.size then a else { a with blocks := a.blocks ++ [b] }
  else { a with blocks := a.blocks ++ [b] }

/-- What is pushed up to a level of trust, of one type or of all. -/
def selected (maxSourceLevel : DataSource) (typeFilter : Option UInt8) (d : Dataset) : Bool :=
  d.dataSource.level ≤ maxSourceLevel.level && typeFilter.all (d.data.type = ·)

def pushBlocks (maxSourceLevel : DataSource) (typeFilter : Option UInt8) (hash : DataHash) :
    List Block :=
  (hash.entries.filter (selected maxSourceLevel typeFilter)).map Dataset.data

def pushData (maxSourceLevel : DataSource) (typeFilter : Option UInt8) (hash : DataHash) :
    List (List UInt8) :=
  let a := (pushBlocks maxSourceLevel typeFilter hash).foldl (aggregate id) ⟨[], 0, []⟩
  let a := if total a.blocks = 0 then a else flush id a
  if 0 < a.seqno ∨ typeFilter ≠ none then
    a.sent ++ [statusPacket alfredStatusTxend id a.seqno]
  else a.sent

/-- The packets of these fillings. -/
def packets (chunks : List (List Block)) : List (List UInt8) :=
  chunks.mapIdx fun i c => pushPacket id (UInt16.ofNat i) (c.flatMap Block.bytes)

def Fits (b : Block) : Prop := b.size ≤ room

instance (b : Block) : Decidable (Fits b) := inferInstanceAs (Decidable (_ ≤ _))

/-- No packet is empty and none is too large. -/
def Filled (chunks : List (List Block)) : Prop := ∀ c ∈ chunks, c ≠ [] ∧ total c ≤ room

/-- After these blocks. -/
structure Aggregated (bs : List Block) (a : Aggregate) (chunks : List (List Block)) : Prop where
  sent : a.sent = packets id chunks
  seqno : a.seqno = UInt16.ofNat chunks.length
  blocks : chunks.flatten ++ a.blocks = bs.filter Fits
  filled : Filled chunks
  fits : total a.blocks ≤ room

theorem total_append (bs bs' : List Block) : total (bs ++ bs') = total bs + total bs' := by
  rw [total, List.map_append, List.sum_append]
  rfl

theorem total_eq_zero {bs : List Block} : total bs = 0 ↔ bs = [] := by
  cases bs with
  | nil => simp [total]
  | cons b bs => simp [total, Block.size]

theorem length_flatMap_bytes (bs : List Block) : (bs.flatMap Block.bytes).length = total bs := by
  simp only [List.length_flatMap, Block.length_bytes, total]

theorem ofNat_succ (n : ℕ) : UInt16.ofNat n + 1 = UInt16.ofNat (n + 1) := by
  rw [UInt16.ofNat_add]
  rfl

variable {id} {bs : List Block} {a : Aggregate} {chunks : List (List Block)}

theorem Aggregated.flush (h : Aggregated id bs a chunks) (hne : a.blocks ≠ []) :
    Aggregated id bs (flush id a) (chunks ++ [a.blocks]) where
  sent := by
    rw [AlfredData.flush, packets, List.mapIdx_concat, h.sent, h.seqno]
    rfl
  seqno := by
    rw [AlfredData.flush, h.seqno, List.length_append]
    exact ofNat_succ _
  blocks := by
    rw [List.flatten_append, ← h.blocks]
    simp [AlfredData.flush]
  filled := by
    intro c hc
    rcases List.mem_append.mp hc with hc | hc
    · exact h.filled c hc
    · rw [List.mem_singleton.mp hc]
      exact ⟨hne, h.fits⟩
  fits := Nat.zero_le _

theorem Aggregated.add (h : Aggregated id bs a chunks) {b : Block} (hb : total a.blocks + b.size ≤ room) :
    Aggregated id (bs ++ [b]) { a with blocks := a.blocks ++ [b] } chunks where
  sent := h.sent
  seqno := h.seqno
  blocks := by
    have hfits : Fits b := (Nat.le_add_left _ _).trans hb
    rw [List.filter_append, ← h.blocks, List.append_assoc]
    simp [hfits]
  filled := h.filled
  fits := by
    rw [total_append]
    simpa [total] using hb

theorem Aggregated.skip (h : Aggregated id bs a chunks) {b : Block} (hb : ¬ Fits b) :
    Aggregated id (bs ++ [b]) a chunks where
  sent := h.sent
  seqno := h.seqno
  blocks := by
    rw [List.filter_append, ← h.blocks]
    simp [hb]
  filled := h.filled
  fits := h.fits

theorem Aggregated.step (h : Aggregated id bs a chunks) (b : Block) :
    ∃ chunks', Aggregated id (bs ++ [b]) (aggregate id a b) chunks' := by
  by_cases hfull : room < total a.blocks + b.size
  · by_cases hempty : total a.blocks = 0
    · refine ⟨chunks, ?_⟩
      rw [aggregate, if_pos hfull, if_pos hempty]
      rw [hempty, Nat.zero_add] at hfull
      exact h.skip (Nat.not_le.mpr hfull)
    · have hflush := h.flush (mt total_eq_zero.mpr hempty)
      have htotal : total (AlfredData.flush id a).blocks = 0 := rfl
      refine ⟨chunks ++ [a.blocks], ?_⟩
      rw [aggregate, if_pos hfull, if_neg hempty]
      by_cases hlarge : room < total (AlfredData.flush id a).blocks + b.size
      · rw [if_pos hlarge]
        rw [htotal, Nat.zero_add] at hlarge
        exact hflush.skip (Nat.not_le.mpr hlarge)
      · rw [if_neg hlarge]
        exact hflush.add (Nat.le_of_not_lt hlarge)
  · refine ⟨chunks, ?_⟩
    rw [aggregate, if_neg hfull]
    exact h.add (Nat.le_of_not_lt hfull)

theorem Aggregated.run (bs' : List Block) (h : Aggregated id bs a chunks) :
    ∃ chunks', Aggregated id (bs ++ bs') (bs'.foldl (aggregate id) a) chunks' := by
  induction bs' generalizing bs a chunks with
  | nil => exact ⟨chunks, by rwa [List.append_nil]⟩
  | cons b bs' ih =>
    obtain ⟨chunks₁, h₁⟩ := h.step b
    rw [List.append_cons]
    exact ih h₁

theorem aggregated_nil (id : UInt16) : Aggregated id [] ⟨[], 0, []⟩ [] where
  sent := rfl
  seqno := rfl
  blocks := rfl
  filled := fun _ hc => absurd hc List.not_mem_nil
  fits := Nat.zero_le _

/-- The packets hold the selected blocks that fit, each once and in the order of the walk; the last
packet says how many there were. -/
theorem pushData_spec (id : UInt16) (maxSourceLevel : DataSource) (typeFilter : Option UInt8)
    (hash : DataHash) :
    ∃ chunks, chunks.flatten = (pushBlocks maxSourceLevel typeFilter hash).filter Fits ∧
      Filled chunks ∧
      pushData id maxSourceLevel typeFilter hash = packets id chunks ++
        if 0 < UInt16.ofNat chunks.length ∨ typeFilter ≠ none then
          [statusPacket alfredStatusTxend id (UInt16.ofNat chunks.length)] else [] := by
  obtain ⟨chunks, h⟩ :=
    (aggregated_nil id).run (pushBlocks maxSourceLevel typeFilter hash)
  rw [List.nil_append] at h
  -- The last packet is sent if there is anything left.
  obtain ⟨a, chunks', ha, hdone, hblocks⟩ : ∃ (a : Aggregate) (chunks' : List (List Block)),
      pushData id maxSourceLevel typeFilter hash =
      (if 0 < a.seqno ∨ typeFilter ≠ none then
        a.sent ++ [statusPacket alfredStatusTxend id a.seqno] else a.sent) ∧
      Aggregated id (pushBlocks maxSourceLevel typeFilter hash) a chunks' ∧ a.blocks = [] := by
    by_cases hempty : total ((pushBlocks maxSourceLevel typeFilter hash).foldl (aggregate id)
        ⟨[], 0, []⟩).blocks = 0
    · refine ⟨_, chunks, ?_, h, total_eq_zero.mp hempty⟩
      rw [pushData, if_pos hempty]
    · refine ⟨_, _, ?_, h.flush (mt total_eq_zero.mpr hempty), rfl⟩
      rw [pushData, if_neg hempty]
  refine ⟨chunks', ?_, hdone.filled, ?_⟩
  · rw [← hdone.blocks, hblocks, List.append_nil]
  · rw [ha, hdone.sent, hdone.seqno]
    split_ifs
    · rfl
    · rw [List.append_nil]

end Push

end NexFi.AlfredData
