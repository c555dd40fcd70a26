import NexFi.VisDocument
import NexFi.VisTables

/-!
# Vis data in lines

In the second format every line is an object of its own. Nothing has to be closed at
the end, so what is printed can be read however the data sets end.
-/

namespace NexFi.VisLines
open FieldText JsonText VisData VisDocument VisTables AlfredPacket AlfredServer
open AlfredClient (macText)

section Prints
variable {α : Type*} {text rest : List Char} {values values' : List Value}

/-- The text is made of lines, and each of them is a value. -/
def Prints (text : List Char) (values : List Value) : Prop :=
  ∃ lines : List (List Char), text = lines.flatMap (fun line => line ++ ['\n']) ∧
    List.Forall₂ (fun line v => IsField isNewline line ∧ Spells line v) lines values

theorem Prints.nil : Prints [] [] := ⟨[], rfl, .nil⟩

theorem Prints.append (h : Prints text values) (h' : Prints rest values') :
    Prints (text ++ rest) (values ++ values') := by
  obtain ⟨lines, rfl, hlines⟩ := h
  obtain ⟨lines', rfl, hlines'⟩ := h'
  exact ⟨lines ++ lines', List.flatMap_append.symm, List.rel_append hlines hlines'⟩

theorem Prints.flatMap {write : α → List Char} {tell : α → List Value} {l : List α}
    (h : ∀ x ∈ l, Prints (write x) (tell x)) : Prints (l.flatMap write) (l.flatMap tell) := by
  induction l with
  | nil => exact Prints.nil
  | cons x l ih =>
    have hrest := ih fun y hy => h y (List.mem_cons_of_mem x hy)
    exact (h x List.mem_cons_self).append hrest

/-- Whoever reads line by line gets the values, in their order. -/
theorem Prints.parse (h : Prints text values) : (fields isNewline text).map parse = values.map some := by
  obtain ⟨lines, rfl, hlines⟩ := h
  have hnewline : isNewline '\n' = true := rfl
  induction hlines with
  | nil => rfl
  | cons hfirst _ ih =>
    obtain ⟨hfield, hspells⟩ := hfirst
    rw [List.flatMap_cons, List.append_assoc, List.singleton_append, fields_next hfield hnewline,
      List.map_cons, List.map_cons, ih, (hspells []).parse]
    rfl

end Prints

section Lines
variable {text : List Char} (ifaces : List EtherAddr)

theorem Plain.free (h : ∀ c ∈ text, Plain c) : Free isNewline text := by
  intro c hc
  obtain ⟨-, -, hprintable⟩ := h c hc
  refine decide_eq_false ?_
  rintro rfl
  exact absurd hprintable (by decide)

theorem free_quoted (h : Free isNewline text) : Free isNewline (quoted text) := by
  have hquote : Free isNewline ['"'] := free_of_all rfl
  exact hquote.append (h.append hquote)

theorem free_quotedMac (mac : EtherAddr) : Free isNewline (quotedMac mac) :=
  free_quoted (free_macText mac)

/-- A line ends with the object. -/
theorem prints_object (members : Members) (key : List Char) {v : Value} (hfree : Free isNewline text)
    (hreads : ∀ stack, Reads (.value stack) text (.next (.obj members key :: stack) v)) :
    Prints (text ++ " \x7d\n".toList) [.obj ((key, v) :: members).reverse] := by
  have hend : IsField isNewline " \x7d".toList := field_of_all rfl rfl
  refine ⟨[text ++ " \x7d".toList], ?_, .cons ⟨⟨?_, hfree.append hend.free⟩, fun stack => ?_⟩ .nil⟩
  · rw [List.flatMap_singleton, List.append_assoc]
    rfl
  · exact List.append_ne_nil_of_right_ne_nil _ hend.nonempty
  · exact (hreads stack).follow _ [.closeObj] rfl rfl

def secondaryValue (mac : EtherAddr) : Value :=
  .obj [("secondary".toList, .str (macText mac)), ("of".toList, .str (macText (macOf ifaces 0)))]

/-- What the lines say of the interfaces of a node. -/
def interfaceValues : List Value :=
  .obj [primaryMember ifaces] :: (ifaces.drop 1).map (secondaryValue ifaces)

/-- What a line says of an entry, if there is one. -/
def entryValues (e : VisEntry) : List Value :=
  if isClient e then
    [.obj [("router".toList, .str (macText (macOf ifaces 0))), ("gateway".toList, .str (macText e.mac)),
      ("label".toList, .str "TT".toList)]]
  else if isNeighbor ifaces e then
    [.obj [("router".toList, .str (macText (macOf ifaces e.ifindex.toNat))),
      ("neighbor".toList, .str (macText e.mac)), ("label".toList, .str (metricText e.qual))]]
  else []

theorem prints_primary : Prints
    ("\x7b \"primary\" : ".toList ++ quotedMac (macOf ifaces 0) ++ " \x7d\n".toList)
    [.obj [primaryMember ifaces]] := by
  have hopen : Free isNewline "\x7b \"primary\" : ".toList := free_of_all rfl
  refine prints_object [] _ (hopen.append (free_quotedMac _)) fun stack => ?_
  have hprimary : Reads (.value stack) "\x7b \"primary\" : ".toList
      (.value (.obj [] "primary".toList :: stack)) :=
    ⟨[.openObj, .str "primary".toList, .colon], rfl, rfl⟩
  exact hprimary.append (spells_quotedMac (macOf ifaces 0) _)

theorem prints_secondary (mac : EtherAddr) : Prints
    ("\x7b \"secondary\" : ".toList ++ quotedMac mac ++ ", \"of\" : ".toList ++
      quotedMac (macOf ifaces 0) ++ " \x7d\n".toList) [secondaryValue ifaces mac] := by
  have hopen : Free isNewline "\x7b \"secondary\" : ".toList := free_of_all rfl
  have hmiddle : Free isNewline ", \"of\" : ".toList := free_of_all rfl
  refine prints_object [("secondary".toList, .str (macText mac))] _
    (((hopen.append (free_quotedMac _)).append hmiddle).append (free_quotedMac _)) fun stack => ?_
  have hsecondary : Reads (.value stack) "\x7b \"secondary\" : ".toList
      (.value (.obj [] "secondary".toList :: stack)) :=
    ⟨[.openObj, .str "secondary".toList, .colon], rfl, rfl⟩
  have hof := (hsecondary.append (spells_quotedMac mac _)).follow ", \"of\" : ".toList
    [.comma, .str "of".toList, .colon] rfl rfl
  exact hof.append (spells_quotedMac (macOf ifaces 0) _)

theorem prints_interfaces : Prints (visJsonInterfaces ifaces) (interfaceValues ifaces) := by
  have hsecondaries := Prints.flatMap (l := ifaces.drop 1)
    fun mac _ => prints_secondary ifaces mac
  rw [← List.map_eq_flatMap] at hsecondaries
  exact (prints_primary ifaces).append hsecondaries

theorem prints_client (router mac : EtherAddr) : Prints
    ("\x7b \"router\" : ".toList ++ quotedMac router ++ ", \"gateway\" : ".toList ++
      quotedMac mac ++ ", \"label\" : \"TT\" \x7d\n".toList)
    [.obj [("router".toList, .str (macText router)), ("gateway".toList, .str (macText mac)),
      ("label".toList, .str "TT".toList)]] := by
  have hopen : Free isNewline "\x7b \"router\" : ".toList := free_of_all rfl
  have hmiddle : Free isNewline ", \"gateway\" : ".toList := free_of_all rfl
  have hlabel : Free isNewline ", \"label\" : \"TT\"".toList := free_of_all rfl
  have hfree := (((hopen.append (free_quotedMac router)).append hmiddle).append
    (free_quotedMac mac)).append hlabel
  have hline := prints_object
    [("gateway".toList, .str (macText mac)), ("router".toList, .str (macText router))] "label".toList hfree
    (v := .str "TT".toList) fun stack => by
      have hrouter : Reads (.value stack) "\x7b \"router\" : ".toList
          (.value (.obj [] "router".toList :: stack)) :=
        ⟨[.openObj, .str "router".toList, .colon], rfl, rfl⟩
      have hgateway := ((hrouter.append (spells_quotedMac router _)).follow ", \"gateway\" : ".toList
        [.comma, .str "gateway".toList, .colon] rfl rfl).append (spells_quotedMac mac _)
      exact hgateway.follow _ [.comma, .str "label".toList, .colon, .str "TT".toList] rfl rfl
  rw [List.append_assoc] at hline
  exact hline

theorem prints_neighbor (router mac : EtherAddr) (qual : UInt8) : Prints
    ("\x7b \"router\" : ".toList ++ quotedMac router ++ ", \"neighbor\" : ".toList ++
      quotedMac mac ++ ", \"label\" : ".toList ++ quoted (metricText qual) ++ " \x7d\n".toList)
    [.obj [("router".toList, .str (macText router)), ("neighbor".toList, .str (macText mac)),
      ("label".toList, .str (metricText qual))]] := by
  have hopen : Free isNewline "\x7b \"router\" : ".toList := free_of_all rfl
  have hmiddle : Free isNewline ", \"neighbor\" : ".toList := free_of_all rfl
  have hlabel : Free isNewline ", \"label\" : ".toList := free_of_all rfl
  have hmetric : Free isNewline (quoted (metricText qual)) :=
    free_quoted (Plain.free (plain_metricText qual))
  refine prints_object
    [("neighbor".toList, .str (macText mac)), ("router".toList, .str (macText router))] _
    (((((hopen.append (free_quotedMac router)).append hmiddle).append (free_quotedMac mac)).append
      hlabel).append hmetric) fun stack => ?_
  have hrouter : Reads (.value stack) "\x7b \"router\" : ".toList
      (.value (.obj [] "router".toList :: stack)) :=
    ⟨[.openObj, .str "router".toList, .colon], rfl, rfl⟩
  have hneighbor := ((hrouter.append (spells_quotedMac router _)).follow ", \"neighbor\" : ".toList
    [.comma, .str "neighbor".toList, .colon] rfl rfl).append (spells_quotedMac mac _)
  exact (hneighbor.follow ", \"label\" : ".toList [.comma, .str "label".toList, .colon] rfl rfl).append
    (spells_metric qual _)

theorem prints_entries (entries : List VisEntry) :
    Prints (visJsonEntries entries ifaces) (entries.flatMap (entryValues ifaces)) := by
  refine Prints.flatMap fun e _ => ?_
  unfold entryValues isClient isNeighbor
  by_cases hclient : e.ifindex = 255
  · simp only [hclient, if_true, decide_true]
    exact prints_client (macOf ifaces 0) e.mac
  · by_cases hrange : ifaces.length ≤ e.ifindex.toNat
    · have hnot : ¬ e.ifindex.toNat < ifaces.length := Nat.not_lt.mpr hrange
      simp only [hclient, hrange, hnot, if_true, if_false, decide_false, Bool.and_false, Bool.false_and,
        Bool.false_eq_true]
      exact Prints.nil
    · have hin : e.ifindex.toNat < ifaces.length := Nat.not_le.mp hrange
      by_cases hqual : e.qual = 0
      · simp [hclient, hrange, hqual, Prints.nil]
      · simp only [hclient, hrange, hin, hqual, if_true, if_false, decide_false, decide_true, ne_eq,
          not_false_eq_true, Bool.and_true, Bool.false_eq_true]
        exact prints_neighbor (macOf ifaces e.ifindex.toNat) e.mac e.qual

end Lines

section DataSets

/-- What the lines say of a data set. -/
def dataLines (data : Bytes) : List Value :=
  interfaceValues (ifaces data) ++ (visEntries data).flatMap (entryValues (ifaces data))

def lineValues (datas : List Bytes) : List Value :=
  (datas.filter fun data => Shown data).flatMap dataLines

theorem prints_dataText (first : Bool) (data : Bytes) :
    Prints (dataText visJsonOps first data) (dataLines data) := by
  refine (prints_interfaces (ifaces data)).append ?_
  by_cases hnone : entriesN data = 0
  · have hentries : visEntries data = [] := by
      rw [← List.length_eq_zero_iff, length_visEntries, hnone]
    rw [if_pos hnone, hentries]
    exact Prints.nil
  · rw [if_neg hnone]
    exact prints_entries (ifaces data) (visEntries data)

theorem prints_printData (first : Bool) (datas : List Bytes) :
    Prints (printData visJsonOps first datas).1
      (lineValues (datas.takeWhile fun data => 8 ≤ data.length)) := by
  induction datas generalizing first with
  | nil => exact Prints.nil
  | cons data datas ih =>
    rw [printData]
    by_cases hshort : data.length < 8
    · rw [if_pos hshort, List.takeWhile_cons_of_neg (by simpa using hshort)]
      exact Prints.nil
    · rw [if_neg hshort, List.takeWhile_cons_of_pos (by simpa using hshort), lineValues]
      by_cases hshown : Shown data
      · rw [if_pos hshown, List.filter_cons_of_pos (by simpa using hshown), List.flatMap_cons]
        exact (prints_dataText first data).append (ih false)
      · rw [if_neg hshown, List.filter_cons_of_neg (by simpa using hshown)]
        exact ih first

/-- Every line that is printed is a value, whatever the data sets are. -/
theorem prints_lines (datas : List Bytes) : Prints (VisDocument.printed visJsonOps datas)
    (lineValues (datas.takeWhile fun data => 8 ≤ data.length)) := by
  have hpost : (if (printData visJsonOps true datas).2 then visJsonOps.postamble else []) = [] :=
    ite_self []
  rw [VisDocument.printed, hpost, List.append_nil]
  exact prints_printData true datas

end DataSets

end NexFi.VisLines
