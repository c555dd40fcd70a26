import Mathlib.Data.List.Basic

/-!
# JSON texts

A scanner turns the characters into tokens, and a reader with a stack of open
containers turns the tokens into a value. Both go from left to right, so a text can
be followed piece by piece, and a piece that fails makes the whole text fail.
-/

namespace NexFi.JsonText

section Scanning

/-- Strings and numbers are kept as they are spelled. -/
inductive Token
  | openObj | closeObj | openArr | closeArr | colon | comma
  | str (text : List Char)
  | num (text : List Char)
  | word (text : List Char)

/-- Where a number is: what has been read decides what may follow. -/
inductive NumberPart
  | minus | zero | int | point | fraction | e | sign | exponent

namespace NumberPart

def complete : NumberPart → Bool
  | zero | int | fraction | exponent => true
  | minus | point | e | sign => false

def next (c : Char) : NumberPart → Option NumberPart
  | minus => if c = '0' then some zero else if c.isDigit then some int else none
  | zero => if c = '.' then some point else if c = 'e' || c = 'E' then some e else none
  | int =>
    if c.isDigit then some int
    else if c = '.' then some point
    else if c = 'e' || c = 'E' then some e
    else none
  | point => if c.isDigit then some fraction else none
  | fraction =>
    if c.isDigit then some fraction else if c = 'e' || c = 'E' then some e else none
  | e => if c.isDigit then some exponent else if c = '+' || c = '-' then some sign else none
  | sign => if c.isDigit then some exponent else none
  | exponent => if c.isDigit then some exponent else none

def start (c : Char) : Option NumberPart := if c = '-' then some minus else next c minus

end NumberPart

/-- Between two tokens, or inside one with what has been read of it, backwards. -/
inductive Mode
  | blank
  | str (text : List Char)
  | escape (text : List Char)
  | unicode (digits text : List Char)
  | num (part : NumberPart) (text : List Char)
  | word (text : List Char)

def isBlank (c : Char) : Bool := c = ' ' || c = '\n' || c = '\t' || c = '\r'

def isHex (c : Char) : Bool := c.isDigit || ('a' ≤ c && c ≤ 'f') || ('A' ≤ c && c ≤ 'F')

def punctuation : Char → Option Token
  | '\x7b' => some .openObj
  | '\x7d' => some .closeObj
  | '[' => some .openArr
  | ']' => some .closeArr
  | ':' => some .colon
  | ',' => some .comma
  | _ => none

def isWord (text : List Char) : Bool :=
  text = ['t', 'r', 'u', 'e'] || text = ['f', 'a', 'l', 's', 'e'] || text = ['n', 'u', 'l', 'l']

def afterToken (token : Token) (c : Char) : Option (Mode × List Token) :=
  match punctuation c with
  | some next => some (.blank, [token, next])
  | none => if isBlank c then some (.blank, [token]) else none

def scanBlank (c : Char) : Option Mode :=
  if isBlank c then some .blank
  else if c = '"' then some (.str [])
  else if c.isLower then some (.word [c])
  else (NumberPart.start c).map fun part => .num part [c]

/-- The mode after a character, and the tokens that it completes. -/
def scan : Mode → Char → Option (Mode × List Token)
  | .blank, c =>
    match punctuation c with
    | some token => some (.blank, [token])
    | none => (scanBlank c).map fun mode => (mode, [])
  | .str text, c =>
    if c = '"' then some (.blank, [.str text.reverse])
    else if c = '\\' then some (.escape text, [])
    else if c.toNat < 32 then none
    else some (.str (c :: text), [])
  | .escape text, c =>
    if c = 'u' then some (.unicode [] text, [])
    else if ['"', '\\', '/', 'b', 'f', 'n', 'r', 't'].contains c then
      some (.str (c :: '\\' :: text), [])
    else none
  | .unicode digits text, c =>
    if !isHex c then none
    else if digits.length = 3 then some (.str (c :: digits ++ 'u' :: '\\' :: text), [])
    else some (.unicode (c :: digits) text, [])
  | .num part text, c =>
    match part.next c with
    | some part => some (.num part (c :: text), [])
    | none => if part.complete then afterToken (.num text.reverse) c else none
  | .word text, c =>
    if c.isLower then some (.word (c :: text), [])
    else if isWord text.reverse then afterToken (.word text.reverse) c
    else none

def scanAll : Mode → List Char → Option (Mode × List Token)
  | mode, [] => some (mode, [])
  | mode, c :: text =>
    (scan mode c).bind fun first =>
      (scanAll first.1 text).map fun rest => (rest.1, first.2 ++ rest.2)

/-- What the end of the text completes. -/
def lastToken : Mode → Option (List Token)
  | .blank => some []
  | .num part text => if part.complete then some [.num text.reverse] else none
  | .word text => if isWord text.reverse then some [.word text.reverse] else none
  | _ => none

def tokens (text : List Char) : Option (List Token) :=
  (scanAll .blank text).bind fun scanned => (lastToken scanned.1).map (scanned.2 ++ ·)

theorem scanAll_append (mode : Mode) (text rest : List Char) :
    scanAll mode (text ++ rest) = (scanAll mode text).bind fun first =>
      (scanAll first.1 rest).map fun last => (last.1, first.2 ++ last.2) := by
  induction text generalizing mode with
  | nil => cases h : scanAll mode rest <;> simp [scanAll, h]
  | cons c text ih =>
    simp only [List.cons_append, scanAll]
    cases scan mode c with
    | none => rfl
    | some first =>
      simp only [Option.bind_some, ih]
      cases scanAll first.1 text with
      | none => rfl
      | some middle =>
        simp only [Option.bind_some, Option.map_some]
        cases scanAll middle.1 rest <;> simp

end Scanning

section Reading

inductive Value
  | word (text : List Char)
  | num (text : List Char)
  | str (text : List Char)
  | arr (items : List Value)
  | obj (members : List (List Char × Value))

/-- A container that is open, with what has been read of it, backwards. -/
inductive Frame
  | arr (items : List Value)
  | obj (members : List (List Char × Value)) (key : List Char)

/-- What has to come next. -/
inductive State
  | value (stack : List Frame)
  | item (stack : List Frame)
  | member (stack : List Frame)
  | key (members : List (List Char × Value)) (stack : List Frame)
  | colon (members : List (List Char × Value)) (key : List Char) (stack : List Frame)
  | next (stack : List Frame) (v : Value)

def readValue (stack : List Frame) : Token → Option State
  | .openObj => some (.member stack)
  | .openArr => some (.item stack)
  | .str text => some (.next stack (.str text))
  | .num text => some (.next stack (.num text))
  | .word text => some (.next stack (.word text))
  | _ => none

def readNext (v : Value) : List Frame → Token → Option State
  | .arr items :: stack, .comma => some (.value (.arr (v :: items) :: stack))
  | .arr items :: stack, .closeArr => some (.next stack (.arr (v :: items).reverse))
  | .obj members key :: stack, .comma => some (.key ((key, v) :: members) stack)
  | .obj members key :: stack, .closeObj => some (.next stack (.obj ((key, v) :: members).reverse))
  | _, _ => none

def read : State → Token → Option State
  | .value stack, t => readValue stack t
  | .item stack, .closeArr => some (.next stack (.arr []))
  | .item stack, t => readValue (.arr [] :: stack) t
  | .member stack, .closeObj => some (.next stack (.obj []))
  | .member stack, .str key => some (.colon [] key stack)
  | .key members stack, .str key => some (.colon members key stack)
  | .colon members key stack, .colon => some (.value (.obj members key :: stack))
  | .next stack v, t => readNext v stack t
  | _, _ => none

def readAll (s : State) (ts : List Token) : Option State := ts.foldlM read s

def finished : State → Option Value
  | .next [] v => some v
  | _ => none

def parse (text : List Char) : Option Value :=
  (tokens text).bind fun ts => (readAll (.value []) ts).bind finished

end Reading

section Pieces
variable {s s' s'' : State} {text rest : List Char} {stack : List Frame} {v : Value}

/-- The text is a number of whole tokens. -/
def Scans (text : List Char) : Prop := ∃ ts, scanAll .blank text = some (.blank, ts)

/-- The text leads from a state to another one. -/
def Reads (s : State) (text : List Char) (s' : State) : Prop :=
  ∃ ts, scanAll .blank text = some (.blank, ts) ∧ readAll s ts = some s'

/-- The text cannot follow. -/
def Rejects (s : State) (text : List Char) : Prop :=
  ∃ ts, scanAll .blank text = some (.blank, ts) ∧ readAll s ts = none

theorem readAll_append (s : State) (ts ts' : List Token) :
    readAll s (ts ++ ts') = (readAll s ts).bind fun s' => readAll s' ts' :=
  List.foldlM_append

theorem scanAll_blank {ts ts' : List Token} (h : scanAll .blank text = some (.blank, ts))
    (h' : scanAll .blank rest = some (.blank, ts')) :
    scanAll .blank (text ++ rest) = some (.blank, ts ++ ts') := by
  rw [scanAll_append, h, Option.bind_some, h']
  rfl

theorem Reads.nil (s : State) : Reads s [] s := ⟨[], rfl, rfl⟩

theorem Reads.scans (h : Reads s text s') : Scans text := by
  obtain ⟨ts, hscan, -⟩ := h
  exact ⟨ts, hscan⟩

theorem Reads.append (h : Reads s text s') (h' : Reads s' rest s'') : Reads s (text ++ rest) s'' := by
  obtain ⟨ts, hscan, hread⟩ := h
  obtain ⟨ts', hscan', hread'⟩ := h'
  refine ⟨ts ++ ts', scanAll_blank hscan hscan', ?_⟩
  rw [readAll_append, hread, Option.bind_some, hread']

theorem Reads.follow (h : Reads s text s') (rest : List Char) (ts : List Token)
    (hscan : scanAll .blank rest = some (.blank, ts)) (hread : readAll s' ts = some s'') :
    Reads s (text ++ rest) s'' :=
  h.append ⟨ts, hscan, hread⟩

theorem Reads.rejects (h : Reads s text s') (h' : Rejects s' rest) : Rejects s (text ++ rest) := by
  obtain ⟨ts, hscan, hread⟩ := h
  obtain ⟨ts', hscan', hread'⟩ := h'
  refine ⟨ts ++ ts', scanAll_blank hscan hscan', ?_⟩
  rw [readAll_append, hread, Option.bind_some, hread']

theorem Rejects.append (h : Rejects s text) (h' : Scans rest) : Rejects s (text ++ rest) := by
  obtain ⟨ts, hscan, hread⟩ := h
  obtain ⟨ts', hscan'⟩ := h'
  refine ⟨ts ++ ts', scanAll_blank hscan hscan', ?_⟩
  rw [readAll_append, hread]
  rfl

theorem Scans.append (h : Scans text) (h' : Scans rest) : Scans (text ++ rest) := by
  obtain ⟨ts, hscan⟩ := h
  obtain ⟨ts', hscan'⟩ := h'
  exact ⟨ts ++ ts', scanAll_blank hscan hscan'⟩

/-- The text is no beginning of a value, or stops before its end. -/
def Fails (s : State) (text : List Char) : Prop :=
  Rejects s text ∨ ∃ s', Reads s text s' ∧ finished s' = none

theorem Reads.fails (h : Reads s text s') (h' : Fails s' rest) : Fails s (text ++ rest) := by
  rcases h' with hrejects | ⟨s'', hreads, hfinished⟩
  · exact .inl (h.rejects hrejects)
  · exact .inr ⟨s'', h.append hreads, hfinished⟩

theorem Reads.parse (h : Reads (.value []) text s) : parse text = finished s := by
  obtain ⟨ts, hscan, hread⟩ := h
  rw [JsonText.parse, tokens, hscan]
  simp only [Option.bind_some, lastToken, Option.map_some, List.append_nil, hread]

theorem Fails.parse (h : Fails (.value []) text) : parse text = none := by
  rcases h with ⟨ts, hscan, hread⟩ | ⟨s', hreads, hfinished⟩
  · rw [JsonText.parse, tokens, hscan]
    simp only [Option.bind_some, lastToken, Option.map_some, List.append_nil, hread, Option.bind_none]
  · rw [hreads.parse, hfinished]

end Pieces

section Values
variable {text rest sep : List Char} {stack : List Frame} {v : Value}

/-- The text is the value, wherever a value may stand. -/
def Spells (text : List Char) (v : Value) : Prop := ∀ stack, Reads (.value stack) text (.next stack v)

/-- A character that stands for itself in a string. -/
def Plain (c : Char) : Prop := c ≠ '"' ∧ c ≠ '\\' ∧ 32 ≤ c.toNat

theorem scanAll_str (h : ∀ c ∈ text, Plain c) (read : List Char) :
    scanAll (.str read) (text ++ ['"']) = some (.blank, [.str (read.reverse ++ text)]) := by
  induction text generalizing read with
  | nil => simp [scanAll, scan]
  | cons c text ih =>
    obtain ⟨hquote, hbackslash, hprintable⟩ := h c List.mem_cons_self
    have hrest := ih (fun c' hc' => h c' (List.mem_cons_of_mem c hc')) (c :: read)
    have hscan : scan (.str read) c = some (.str (c :: read), []) := by
      rw [scan, if_neg hquote, if_neg hbackslash, if_neg (Nat.not_lt.mpr hprintable)]
    rw [List.cons_append, scanAll, hscan, Option.bind_some, hrest]
    simp

def quoted (text : List Char) : List Char := '"' :: (text ++ ['"'])

theorem scanAll_quoted (h : ∀ c ∈ text, Plain c) :
    scanAll .blank (quoted text) = some (.blank, [.str text]) := by
  have hrest := scanAll_str h []
  rw [quoted, scanAll, show scan .blank '"' = some (.str [], []) from rfl, Option.bind_some, hrest]
  rfl

theorem spells_quoted (h : ∀ c ∈ text, Plain c) : Spells (quoted text) (.str text) :=
  fun _ => ⟨[.str text], scanAll_quoted h, rfl⟩

/-- After the items of an array, the last one first. -/
def afterItems (stack : List Frame) : List Value → State
  | [] => .item stack
  | v :: items => .next (.arr items :: stack) v

theorem readAll_item {ts : List Token} {s : State} (h : readAll (.value (.arr [] :: stack)) ts = some s)
    (hne : ts ≠ []) : readAll (.item stack) ts = some s := by
  cases ts with
  | nil => exact absurd rfl hne
  | cons t ts => cases t <;> first | exact h | cases h

theorem Spells.item (h : Spells text v) : Reads (.item stack) text (afterItems stack [v]) := by
  obtain ⟨ts, hscan, hread⟩ := h (.arr [] :: stack)
  refine ⟨ts, hscan, readAll_item hread ?_⟩
  rintro rfl
  cases hread

/-- The separator that comes before all items but the first. -/
def Separates (sep : List Char) : Prop := scanAll .blank sep = some (.blank, [.comma])

theorem Separates.scans (h : Separates sep) : Scans sep := ⟨_, h⟩

theorem Separates.rejects (h : Separates sep) (members : List (List Char × Value)) :
    Rejects (.key members stack) sep :=
  ⟨_, h, rfl⟩

/-- Items as they are printed one after the other; `first` until one has been. -/
def separated (sep : List Char) : Bool → List (List Char) → List Char
  | _, [] => []
  | first, item :: items => (if first then [] else sep) ++ item ++ separated sep false items

theorem Spells.next (h : Spells text v) (hsep : Separates sep) (stack : List Frame) (items : List Value) :
    Reads (afterItems stack items) ((if items.isEmpty then [] else sep) ++ text)
      (afterItems stack (v :: items)) := by
  cases items with
  | nil => exact h.item
  | cons v' items =>
    have hcomma : Reads (afterItems stack (v' :: items)) sep (.value (.arr (v' :: items) :: stack)) :=
      ⟨_, hsep, rfl⟩
    exact hcomma.append (h _)

theorem reads_separated (stack : List Frame) (hsep : Separates sep) {ps : List (List Char × Value)}
    (hps : ∀ p ∈ ps, Spells p.1 p.2) (items : List Value) :
    Reads (afterItems stack items) (separated sep items.isEmpty (ps.map Prod.fst))
      (afterItems stack ((ps.map Prod.snd).reverse ++ items)) := by
  induction ps generalizing items with
  | nil => exact Reads.nil _
  | cons p ps ih =>
    have hfirst := (hps p List.mem_cons_self).next hsep stack items
    have hrest := ih (fun q hq => hps q (List.mem_cons_of_mem p hq)) (p.2 :: items)
    rw [List.map_cons, List.map_cons, separated, List.reverse_cons, List.append_assoc, List.append_assoc]
    rw [← List.append_assoc]
    exact hfirst.append hrest

theorem reads_closeArr (stack : List Frame) (items : List Value) {close : List Char}
    (hclose : scanAll .blank close = some (.blank, [.closeArr])) :
    Reads (afterItems stack items) close (.next stack (.arr items.reverse)) := by
  refine ⟨_, hclose, ?_⟩
  cases items <;> rfl

/-- A whole array. -/
theorem reads_items {α : Type*} {write : α → List Char} {value : α → Value} (stack : List Frame)
    (hsep : Separates sep) (hspells : ∀ x, Spells (write x) (value x)) (l : List α) {close : List Char}
    (hclose : scanAll .blank close = some (.blank, [.closeArr])) :
    Reads (.item stack) (separated sep true (l.map write) ++ close) (.next stack (.arr (l.map value))) := by
  have hps : ∀ p ∈ l.map fun x => (write x, value x), Spells p.1 p.2 := by
    intro p hp
    obtain ⟨x, -, rfl⟩ := List.mem_map.mp hp
    exact hspells x
  have hitems := reads_separated stack hsep hps []
  have hend := reads_closeArr stack (((l.map fun x => (write x, value x)).map Prod.snd).reverse ++ []) hclose
  rw [List.append_nil, List.reverse_reverse] at hend
  rw [List.append_nil] at hitems
  have hall := hitems.append hend
  rw [List.map_map, List.map_map] at hall
  exact hall

end Values

end NexFi.JsonText
