import Mathlib.Data.List.Dedup
import NexFi.TopologyLayout

/-!
# The grid slots

An address without a saved position takes a slot of the generator each time the
document shows it, but keeps the one of its first time. So its slot has the
number of the unsaved appearances before that, whatever positions are saved.
-/

namespace NexFi.Topology
open GoJson KeyedList

def slotAt (positions : List Position) (i : ℕ) : Position := positions[i]?.getD ⟨0, 0⟩

section Slots
variable (posData : VisPositionData)

def unsavedOf (macs : List Mac) : List Mac :=
  macs.filter fun mac => getSavedPosition mac.text posData = none

def slotNumber (macs : List Mac) (mac : Mac) : ℕ := (unsavedOf posData macs).idxOf mac

def positionOf (positions : List Position) (macs : List Mac) (mac : Mac) : Position :=
  (getSavedPosition mac.text posData).getD (slotAt positions (slotNumber posData macs mac))

end Slots

def Page.DrawnAt (page : Page) (mac : Mac) (position : Position) : Prop :=
  ∃ b ∈ page.boxes, b.name = mac.text ∧ b.position = position

/-- The unsaved addresses stand on slots of the grid, no two on the same. -/
structure SpreadOut (page : Page) (unsaved : List Mac) : Prop where
  onGrid : ∀ mac ∈ unsaved, ∃ position ∈ positionGenerator, page.DrawnAt mac position
  apart : ∀ mac₁ ∈ unsaved, ∀ mac₂ ∈ unsaved, ∀ position,
    page.DrawnAt mac₁ position → page.DrawnAt mac₂ position → mac₁ = mac₂

theorem Mac.text_injective : Function.Injective Mac.text := by
  intro mac₁ mac₂ h
  cases mac₁
  cases mac₂
  cases h
  rfl

theorem slotAt_getPos (positions : List Position) (i : ℕ) :
    slotAt (getPos positions).2 i = slotAt positions (i + 1) := by
  cases positions <;> rfl

theorem getPos_slotAt (positions : List Position) : (getPos positions).1 = slotAt positions 0 := by
  cases positions <;> rfl

theorem mem_positionGenerator (i : ℕ) : slotAt positionGenerator i ∈ positionGenerator ↔ i < 36 := by
  have hlength : positionGenerator.length = 36 := rfl
  by_cases h : i < 36
  · rw [slotAt, List.getElem?_eq_getElem (hlength ▸ h)]
    exact iff_of_true (List.getElem_mem _) h
  · rw [slotAt, List.getElem?_eq_none (by omega)]
    exact iff_of_false (by decide) h

theorem slotAt_injective {i j : ℕ} (hi : i < 36)
    (h : slotAt positionGenerator i = slotAt positionGenerator j) : i = j := by
  have hlength : positionGenerator.length = 36 := rfl
  have hj : j < 36 := (mem_positionGenerator j).mp (h ▸ (mem_positionGenerator i).mpr hi)
  have hnodup : positionGenerator.Nodup := by decide
  rw [slotAt, slotAt, List.getElem?_eq_getElem (hlength ▸ hi),
    List.getElem?_eq_getElem (hlength ▸ hj)] at h
  exact (hnodup.getElem_inj_iff).mp h

section Placings
variable (posData : VisPositionData)

theorem mem_unsavedOf {macs : List Mac} {mac : Mac} :
    mac ∈ unsavedOf posData macs ↔ mac ∈ macs ∧ getSavedPosition mac.text posData = none := by
  simp [unsavedOf]

theorem unsavedOf_cons_saved {m : Mac} (h : getSavedPosition m.text posData ≠ none)
    (macs : List Mac) : unsavedOf posData (m :: macs) = unsavedOf posData macs :=
  List.filter_cons_of_neg (by simpa using h)

theorem unsavedOf_cons_unsaved {m : Mac} (h : getSavedPosition m.text posData = none)
    (macs : List Mac) : unsavedOf posData (m :: macs) = m :: unsavedOf posData macs :=
  List.filter_cons_of_pos (by simpa using h)

theorem placings_cons (positions : List Position) (m : Mac) (macs : List Mac) :
    placings posData positions (m :: macs) =
      (m.text, (choosePosition posData positions m).1) ::
        placings posData (choosePosition posData positions m).2 macs := rfl

theorem choosePosition_saved {m : Mac} {saved : Position}
    (h : getSavedPosition m.text posData = some saved) (positions : List Position) :
    choosePosition posData positions m = (saved, positions) := by
  rw [choosePosition, h]

theorem choosePosition_unsaved {m : Mac} (h : getSavedPosition m.text posData = none)
    (positions : List Position) : choosePosition posData positions m = getPos positions := by
  rw [choosePosition, h]

theorem positionOf_self (positions : List Position) (mac : Mac) (macs : List Mac) :
    positionOf posData positions (mac :: macs) mac = (choosePosition posData positions mac).1 := by
  cases h : getSavedPosition mac.text posData with
  | some saved =>
    rw [choosePosition_saved posData h, positionOf, h, Option.getD_some]
  | none =>
    rw [choosePosition_unsaved posData h, positionOf, h, Option.getD_none, slotNumber,
      unsavedOf_cons_unsaved posData h, List.idxOf_cons_self, getPos_slotAt]

theorem positionOf_cons_ne {m mac : Mac} (hne : m ≠ mac) (positions : List Position)
    (macs : List Mac) :
    positionOf posData positions (m :: macs) mac =
      positionOf posData (choosePosition posData positions m).2 macs mac := by
  cases h : getSavedPosition m.text posData with
  | some saved =>
    rw [choosePosition_saved posData h, positionOf, positionOf, slotNumber, slotNumber,
      unsavedOf_cons_saved posData (by simp [h])]
  | none =>
    rw [choosePosition_unsaved posData h, positionOf, positionOf, slotNumber, slotNumber,
      unsavedOf_cons_unsaved posData h, List.idxOf_cons_ne _ hne, slotAt_getPos]

theorem find?_placings {mac : Mac} {macs : List Mac} (h : mac ∈ macs) (positions : List Position) :
    (placings posData positions macs).find? (fun p => p.1 = mac.text) =
      some (mac.text, positionOf posData positions macs mac) := by
  induction macs generalizing positions with
  | nil => cases h
  | cons m macs ih =>
    rw [placings_cons]
    by_cases hm : m = mac
    · subst hm
      rw [List.find?_cons_of_pos (by simp), positionOf_self]
    · have hmem : mac ∈ macs := (List.mem_cons.mp h).resolve_left fun heq => hm heq.symm
      have htext : m.text ≠ mac.text := fun heq => hm (Mac.text_injective heq)
      rw [List.find?_cons_of_neg (by simpa using htext), ih hmem, positionOf_cons_ne posData hm]

end Placings

section Drawn
variable (getNodeDetail : String → Option String) (posData : VisPositionData) (page : Page)
  (doc : List PrintedEntry)

theorem drawnAt_iff {mac : Mac} (h : mac ∈ macsOf doc) (position : Position) :
    (drawDocument getNodeDetail posData page doc).1.DrawnAt mac position ↔
      position = positionOf posData positionGenerator (macsOf doc) mac := by
  have hnames := (consistent_drawDocument getNodeDetail posData page doc).names
  rw [← Page.keys_layout] at hnames
  have hmem : (drawDocument getNodeDetail posData page doc).1.DrawnAt mac position ↔
      (mac.text, position) ∈ (drawDocument getNodeDetail posData page doc).1.layout := by
    simp [Page.DrawnAt, Page.layout]
  rw [hmem, ← find?_eq_some_iff hnames, layout_drawDocument, find?_insertAll, List.nil_append,
    find?_placings posData h]
  simp [eq_comm]

theorem positionOf_unsaved {macs : List Mac} {mac : Mac} (h : mac ∈ unsavedOf posData macs)
    (positions : List Position) :
    positionOf posData positions macs mac = slotAt positions (slotNumber posData macs mac) := by
  rw [positionOf, ((mem_unsavedOf posData).mp h).2, Option.getD_none]

theorem spreadOut_iff :
    SpreadOut (drawDocument getNodeDetail posData page doc).1 (unsavedOf posData (macsOf doc)) ↔
      ∀ mac ∈ unsavedOf posData (macsOf doc), slotNumber posData (macsOf doc) mac < 36 := by
  have hdrawn : ∀ mac ∈ unsavedOf posData (macsOf doc), ∀ position,
      (drawDocument getNodeDetail posData page doc).1.DrawnAt mac position ↔
        position = slotAt positionGenerator (slotNumber posData (macsOf doc) mac) := by
    intro mac hmac position
    rw [drawnAt_iff _ _ _ _ ((mem_unsavedOf posData).mp hmac).1, positionOf_unsaved posData hmac]
  constructor
  · intro h mac hmac
    obtain ⟨position, hgrid, hat⟩ := h.onGrid mac hmac
    rw [hdrawn mac hmac] at hat
    exact (mem_positionGenerator _).mp (hat ▸ hgrid)
  · intro h
    refine ⟨fun mac hmac => ?_, fun mac₁ h₁ mac₂ h₂ position hat₁ hat₂ => ?_⟩
    · exact ⟨_, (mem_positionGenerator _).mpr (h mac hmac), (hdrawn mac hmac _).mpr rfl⟩
    · rw [hdrawn mac₁ h₁] at hat₁
      rw [hdrawn mac₂ h₂] at hat₂
      have hnumber := slotAt_injective (h mac₁ h₁) (hat₁.symm.trans hat₂)
      exact (List.idxOf_inj h₁).mp hnumber

/-- With no more unsaved addresses than slots, these are spread out exactly when
each shows up among the first 36 unsaved appearances. -/
theorem unsaved_spread_out :
    ((unsavedOf posData (macsOf doc)).dedup.length ≤ 36 →
      SpreadOut (drawDocument getNodeDetail posData page doc).1 (unsavedOf posData (macsOf doc))) ↔
    36 < (unsavedOf posData (macsOf doc)).dedup.length ∨
      ∀ mac ∈ unsavedOf posData (macsOf doc), mac ∈ (unsavedOf posData (macsOf doc)).take 36 := by
  have hfirst : (∀ mac ∈ unsavedOf posData (macsOf doc),
      slotNumber posData (macsOf doc) mac < 36) ↔
      ∀ mac ∈ unsavedOf posData (macsOf doc), mac ∈ (unsavedOf posData (macsOf doc)).take 36 :=
    forall₂_congr fun mac hmac => (List.mem_take_iff_idxOf_lt hmac).symm
  rw [spreadOut_iff, hfirst, ← not_le]
  exact imp_iff_not_or

end Drawn

def crowded : List PrintedEntry :=
  [⟨macA, [], List.replicate 36 ⟨macA, macB, "1.000"⟩, by decide⟩, ⟨macC, [], [], by decide⟩]

theorem crowded_not_spread_out :
    ¬ ∀ (posData : VisPositionData) (doc : List PrintedEntry),
      (unsavedOf posData (macsOf doc)).dedup.length ≤ 36 →
      SpreadOut (drawDocument (fun _ => none) posData ⟨[], [], 0⟩ doc).1
        (unsavedOf posData (macsOf doc)) := by
  intro h
  have hspread := h ⟨none⟩ crowded (by decide)
  rw [spreadOut_iff] at hspread
  revert hspread
  decide

section Shared
variable (getNodeDetail : String → Option String) (posData : VisPositionData) (page : Page)
  (doc : List PrintedEntry)

/-- A slot that an unsaved address got has the number of the unsaved appearances
before it. No other unsaved address stands there, a saved one does when its own
position is that slot. -/
theorem grid_slot_shared {mac : Mac} (h : mac ∈ unsavedOf posData (macsOf doc)) {slot : Position}
    (hgrid : slot ∈ positionGenerator)
    (hat : (drawDocument getNodeDetail posData page doc).1.DrawnAt mac slot) :
    positionGenerator[slotNumber posData (macsOf doc) mac]? = some slot ∧
      ∀ other ∈ macsOf doc, other ≠ mac →
        ((drawDocument getNodeDetail posData page doc).1.DrawnAt other slot ↔
          getSavedPosition other.text posData = some slot) := by
  rw [drawnAt_iff _ _ _ _ ((mem_unsavedOf posData).mp h).1, positionOf_unsaved posData h] at hat
  have hnumber : slotNumber posData (macsOf doc) mac < 36 :=
    (mem_positionGenerator _).mp (hat ▸ hgrid)
  refine ⟨?_, fun other hother hne => ?_⟩
  · have hlt : slotNumber posData (macsOf doc) mac < positionGenerator.length := hnumber
    rw [hat, slotAt, List.getElem?_eq_getElem hlt, Option.getD_some]
  · rw [drawnAt_iff _ _ _ _ hother]
    cases hsaved : getSavedPosition other.text posData with
    | some saved =>
      rw [positionOf, hsaved, Option.getD_some, Option.some.injEq, eq_comm]
    | none =>
      have hunsaved := (mem_unsavedOf posData).mpr ⟨hother, hsaved⟩
      rw [positionOf_unsaved posData hunsaved]
      refine iff_of_false (fun hsame => ?_) (by simp)
      have heq := slotAt_injective hnumber (hat.symm.trans hsame)
      exact hne ((List.idxOf_inj h).mp heq).symm

end Shared

def savedA : VisPositionData := ⟨some [⟨macA.text, ⟨50, 50⟩⟩]⟩

def beside : List PrintedEntry := [⟨macB, [], [⟨macB, macA, "1.000"⟩], by decide⟩]

theorem grid_slot_shared_beside :
    positionGenerator[slotNumber savedA (macsOf beside) macB]? = some ⟨50, 50⟩ ∧
      ∀ other ∈ macsOf beside, other ≠ macB →
        ((drawDocument (fun _ => none) savedA ⟨[], [], 0⟩ beside).1.DrawnAt other ⟨50, 50⟩ ↔
          getSavedPosition other.text savedA = some ⟨50, 50⟩) :=
  grid_slot_shared (fun _ => none) savedA ⟨[], [], 0⟩ beside (by decide) (by decide)
    ((drawnAt_iff _ _ _ _ (by decide) _).mpr (by decide))

/-- The first slot is given to a node although a saved one stands there. -/
theorem slot_on_saved :
    ¬ ∀ (posData : VisPositionData) (doc : List PrintedEntry),
      ∀ mac ∈ unsavedOf posData (macsOf doc), ∀ slot ∈ positionGenerator,
        (drawDocument (fun _ => none) posData ⟨[], [], 0⟩ doc).1.DrawnAt mac slot →
        ∀ other ∈ macsOf doc, other ≠ mac → getSavedPosition other.text posData ≠ some slot := by
  intro h
  have hat : (drawDocument (fun _ => none) savedA ⟨[], [], 0⟩ beside).1.DrawnAt macB ⟨50, 50⟩ :=
    (drawnAt_iff _ _ _ _ (by decide) _).mpr (by decide)
  exact h savedA beside macB (by decide) ⟨50, 50⟩ (by decide) hat macA (by decide) (by decide) rfl

end NexFi.Topology
