import NexFi.GoQuery
import NexFi.TopologyLayout
import NexFi.WebConfig

/-!
# The details of a node

The page asks `/node` for an address, the handler capitalises it and takes the
first entry that is spelled like that, and an empty record stands for no entry.
The page takes a record without a number for that. So an entry is found when it
is spelled in capitals and has a number.
-/

namespace NexFi.Web
open Posix GoText GoQuery
open GoJson hiding decodeString
open NexFi.Topology (Mac field isMac macA)

/-- A Go string; a value that is not UTF-8 is no address. -/
def goString (b : Bytes) : String := (String.fromUTF8? b.toByteArray).getD "\uFFFD"

def queryErrorText : QueryError → String
  | .escape piece => "invalid URL escape \"" ++ goString piece ++ "\""
  | .semicolon => "invalid semicolon separator in query"

/-- What the handler gets from `url.ParseQuery`. -/
def queryForm (rawQuery : Bytes) : Except String (String → List String) :=
  match (GoQuery.parseQuery rawQuery).error with
  | some e => .error (queryErrorText e)
  | none => .ok fun key => ((GoQuery.parseQuery rawQuery).get (utf8 key)).map goString

/-- The request for `/node?macAddr=`. -/
def nodeRequest (macAddr : String) : Request :=
  ⟨"GET", queryForm (utf8 "macAddr" ++ 61 :: utf8 macAddr), none⟩

/-- `jsonData.no == ""`, where the property of a record is a string. -/
def noIsEmpty (jsonData : Json) : Bool :=
  match field "no" jsonData with
  | some (.str no) => no = ""
  | _ => false

/-- The `success` callback: the answer stays null without it. -/
def received (served : Handled) : Option Json :=
  match served.response with
  | some ⟨200, _, [.json jsonData]⟩ => if noIsEmpty jsonData then none else some jsonData
  | _ => none

def getNodeDetail (world : World) (macAddr : String) : Option Json :=
  received (handled (nodeDetailHandler world (nodeRequest macAddr)))

/-- `strings.ToUpper` on ASCII. -/
def Capitalises (toUpper : String → String) : Prop :=
  ∀ s : String, (∀ c ∈ s.toList, c.toNat < 128) →
    toUpper s = String.ofList (s.toList.map Char.toUpper)

def capital (s : String) : String := String.ofList (s.toList.map Char.toUpper)

/-- The same address, whatever the case of its digits. -/
def Denotes (adhoc0 : String) (mac : Mac) : Prop := capital adhoc0 = capital mac.text

instance (adhoc0 : String) (mac : Mac) : Decidable (Denotes adhoc0 mac) :=
  inferInstanceAs (Decidable (_ = _))

/-- The entry that belongs to an address. -/
def entryOf (table : List NexFiData) (mac : Mac) : Option NexFiData :=
  table.find? fun entry => Denotes entry.adhoc0 mac

def macDigits : List Char := "0123456789abcdef:".toList

theorem mem_mac {mac : Mac} {c : Char} (h : c ∈ mac.text.toList) : c ∈ macDigits := by
  have hformat := mac.format
  rw [isMac, Bool.and_eq_true, List.all_eq_true] at hformat
  obtain ⟨i, hi, rfl⟩ := List.mem_iff_getElem.mp h
  have hchar := hformat.2 (mac.text.toList[i], i) (List.mem_zipIdx_iff_getElem?.mpr (by simp [hi]))
  split_ifs at hchar with hcolon
  · have heq : mac.text.toList[i] = ':' := by simpa using hchar
    rw [heq]
    decide
  · have hdigit : mac.text.toList[i] ∈ "0123456789abcdef".toList := by simpa using hchar
    exact List.mem_append_left [':'] hdigit

theorem forall_digit {P : Char → Prop} [DecidablePred P] (h : macDigits.all fun c => P c) :
    ∀ c ∈ macDigits, P c := by
  intro c hc
  simpa using List.all_eq_true.mp h c hc

theorem plain_digit : ∀ c ∈ macDigits, Plain (String.utf8EncodeChar c) :=
  forall_digit (by decide +kernel)

theorem plain_mac (mac : Mac) : Plain (utf8 mac.text) := by
  intro b hb
  obtain ⟨c, hc, hbc⟩ := List.mem_flatMap.mp hb
  exact plain_digit c (mem_mac hc) b hbc

theorem goString_utf8 (s : String) : goString (utf8 s) = s := by
  have hbytes : (utf8 s).toByteArray = s.toByteArray := String.utf8Encode_toList
  rw [goString, hbytes, String.fromUTF8?, dif_pos s.isValidUTF8]
  rfl

theorem queryForm_node (mac : Mac) :
    ∃ form, (nodeRequest mac.text).query = .ok form ∧ form "macAddr" = [mac.text] := by
  have hkey : Plain (utf8 "macAddr") := by decide +kernel
  have hparse := parseQuery_plain hkey (plain_mac mac)
  refine ⟨_, by rw [nodeRequest, queryForm, hparse], ?_⟩
  simp [Values.get, goString_utf8]

theorem findNode_eq (world : World) {form : String → List String} {mac : String}
    (h : form "macAddr" = [mac]) :
    findNode world (.ok form) =
      (world.ipInfo.find? fun ip => world.toUpper mac = ip.adhoc0).getD noNode := by
  rw [findNode]
  simp only [h]
  rfl

theorem noIsEmpty_marshal (entry : NexFiData) :
    noIsEmpty (marshalNexFiData entry) = decide (entry.no = "") := by
  simp [noIsEmpty, marshalNexFiData, field]

theorem getNodeDetail_eq (world : World) (mac : Mac) :
    getNodeDetail world mac.text =
      ((world.ipInfo.find? fun ip => world.toUpper mac.text = ip.adhoc0).filter
        fun entry => entry.no ≠ "").map marshalNexFiData := by
  obtain ⟨form, hquery, hform⟩ := queryForm_node mac
  have hrequest : nodeRequest mac.text = ⟨"GET", .ok form, none⟩ := by
    rw [← hquery]
    rfl
  rw [getNodeDetail, hrequest, handled_nodeDetail, findNode_eq world hform]
  simp only [received, noIsEmpty_marshal]
  cases world.ipInfo.find? fun ip => world.toUpper mac.text = ip.adhoc0 with
  | none => rfl
  | some entry =>
    by_cases hno : entry.no = ""
    · simp [hno]
    · simp [hno]

theorem ascii_digit : ∀ c ∈ macDigits, c.toNat < 128 :=
  forall_digit (by decide +kernel)

theorem toUpper_digit : ∀ c ∈ macDigits, c.toUpper.toUpper = c.toUpper :=
  forall_digit (by decide +kernel)

theorem toUpper_mac {toUpper : String → String} (h : Capitalises toUpper) (mac : Mac) :
    toUpper mac.text = capital mac.text :=
  h mac.text fun c hc => ascii_digit c (mem_mac hc)

theorem capital_capital (mac : Mac) : capital (capital mac.text) = capital mac.text := by
  simp only [capital, String.toList_ofList, List.map_map]
  refine congrArg String.ofList (List.map_congr_left fun c hc => ?_)
  exact toUpper_digit c (mem_mac hc)

theorem find?_of_stronger {α : Type} {p q : α → Bool} (h : ∀ a, q a = true → p a = true)
    {xs : List α} {a : α} (hp : xs.find? p = some a) (hq : q a = true) : xs.find? q = some a := by
  induction xs with
  | nil => cases hp
  | cons x xs ih =>
    by_cases hx : p x = true
    · rw [List.find?_cons_of_pos hx, Option.some.injEq] at hp
      subst hp
      exact List.find?_cons_of_pos hq
    · rw [List.find?_cons_of_neg hx] at hp
      rw [List.find?_cons_of_neg (mt (h x) hx)]
      exact ih hp

theorem marshalNexFiData_injective : Function.Injective marshalNexFiData := by
  intro n m h
  cases n
  cases m
  simpa [marshalNexFiData] using h

/-- The entry that is spelled like the capitalised address. -/
def spelled (table : List NexFiData) (mac : Mac) : Option NexFiData :=
  table.find? fun entry => capital mac.text = entry.adhoc0

section Table
variable {table : List NexFiData} {mac : Mac} {entry : NexFiData}

theorem adhoc0_of_spelled (h : spelled table mac = some entry) :
    entry.adhoc0 = capital mac.text := by
  have hsome := List.find?_some h
  simpa [eq_comm] using hsome

theorem denotes_of_spelled {adhoc0 : String} (h : capital mac.text = adhoc0) :
    Denotes adhoc0 mac := by
  rw [Denotes, ← h, capital_capital]

theorem spelled_of_entryOf (h : entryOf table mac = some entry)
    (hcapital : capital entry.adhoc0 = entry.adhoc0) : spelled table mac = some entry := by
  have hdenotes : Denotes entry.adhoc0 mac := by simpa using List.find?_some h
  have hspelled : capital mac.text = entry.adhoc0 := hdenotes.symm.trans hcapital
  refine find?_of_stronger (fun e he => ?_) h (by simpa using hspelled)
  have hsame : capital mac.text = e.adhoc0 := by simpa using he
  simpa using denotes_of_spelled hsame

theorem spelled_of_none (h : entryOf table mac = none) : spelled table mac = none := by
  rw [entryOf, List.find?_eq_none] at h
  rw [spelled, List.find?_eq_none]
  intro e he hspelled
  have hsame : capital mac.text = e.adhoc0 := by simpa using hspelled
  exact h e he (by simpa using denotes_of_spelled hsame)

end Table

/-- The page gets the entry of an address, or null where there is none, exactly
when that entry is spelled in capitals and has a number. -/
theorem node_found_iff (world : World) (hupper : Capitalises world.toUpper) (mac : Mac) :
    getNodeDetail world mac.text = (entryOf world.ipInfo mac).map marshalNexFiData ↔
      ∀ entry ∈ entryOf world.ipInfo mac, capital entry.adhoc0 = entry.adhoc0 ∧ entry.no ≠ "" := by
  have hdetail : getNodeDetail world mac.text =
      ((spelled world.ipInfo mac).filter fun entry => entry.no ≠ "").map marshalNexFiData := by
    rw [getNodeDetail_eq, toUpper_mac hupper]
    rfl
  rw [hdetail]
  cases hentry : entryOf world.ipInfo mac with
  | none =>
    rw [spelled_of_none hentry]
    exact iff_of_true rfl fun entry he => by cases he
  | some entry =>
    constructor
    · intro h e he
      cases he
      obtain ⟨found, hfound, hmarshal⟩ := Option.map_eq_some_iff.mp h
      obtain ⟨hspelled, hno⟩ := Option.filter_eq_some_iff.mp hfound
      have hsame : found = entry := marshalNexFiData_injective hmarshal
      subst hsame
      have hadhoc0 := adhoc0_of_spelled hspelled
      exact ⟨by rw [hadhoc0, capital_capital], by simpa using hno⟩
    · intro h
      obtain ⟨hcapital, hno⟩ := h entry rfl
      rw [spelled_of_entryOf hentry hcapital]
      simp [hno]

def marshalIpInfo (table : List NexFiData) : Json :=
  .obj [("nexfi", .arr (table.map marshalNexFiData))]

theorem decodeNexFiData_marshal (entry : NexFiData) :
    decodeNexFiData noNode (marshalNexFiData entry) = ⟨entry, false⟩ := by
  simp +decide [decodeNexFiData, decodeStruct, marshalNexFiData, GoJson.decodeString]

/-- Every table can come from a file. -/
theorem loadIpInfo_marshal (table : List NexFiData) :
    loadIpInfo (.content (some (marshalIpInfo table))) = ⟨some table⟩ := by
  have hkey : foldEq "nexfi" "nexfi" = true := by decide
  have helements : (table.map marshalNexFiData).map (decodeNexFiData noNode) =
      table.map fun entry => (⟨entry, false⟩ : Decoded NexFiData) := by
    rw [List.map_map]
    exact List.map_congr_left fun entry _ => decodeNexFiData_marshal entry
  simp only [loadIpInfo, decodeBody, decodeIpInfo, decodeStruct, marshalIpInfo, hkey, if_true,
    List.foldl_cons, List.foldl_nil, decodeSlice, helements]
  simp [Function.comp_def]

theorem capitalises_capital : Capitalises capital := fun _ _ => rfl

def tableWorld (table : List NexFiData) : World :=
  { brokenWorld with ipInfo := table, toUpper := capital }

def capitalEntry : NexFiData := ⟨"02:00:00:00:00:0A", "", "", "192.168.100.61", "61"⟩

theorem node_found_iff_capital :
    getNodeDetail (tableWorld [capitalEntry]) macA.text =
        (entryOf (tableWorld [capitalEntry]).ipInfo macA).map marshalNexFiData ↔
      ∀ entry ∈ entryOf (tableWorld [capitalEntry]).ipInfo macA,
        capital entry.adhoc0 = entry.adhoc0 ∧ entry.no ≠ "" :=
  node_found_iff (tableWorld [capitalEntry]) capitalises_capital macA

/-- The entry in the case in which the vis document prints the address. -/
def smallEntry : NexFiData := { capitalEntry with adhoc0 := macA.text }

theorem node_not_found :
    ¬ ∀ (state : FileState) (world : World), Capitalises world.toUpper →
      world.ipInfo = (loadIpInfo state).nexFi.getD [] → ∀ mac : Mac,
        getNodeDetail world mac.text = (entryOf world.ipInfo mac).map marshalNexFiData := by
  intro h
  have hfound := h (.content (some (marshalIpInfo [smallEntry]))) (tableWorld [smallEntry])
    capitalises_capital (by rw [loadIpInfo_marshal]; rfl) macA
  have hentry : entryOf (tableWorld [smallEntry]).ipInfo macA = some smallEntry := by decide
  have hspelled : (tableWorld [smallEntry]).ipInfo.find? (fun ip =>
      (tableWorld [smallEntry]).toUpper macA.text = ip.adhoc0) = none := by decide
  rw [getNodeDetail_eq, hspelled, hentry] at hfound
  cases hfound

end NexFi.Web
