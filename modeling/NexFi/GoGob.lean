import NexFi.GoJson
import NexFi.GobWire

/-!
# The gob wires of the two documents

A struct is written as its non-zero fields, each behind the distance from the
field before it, and a zero byte. A struct within a struct is written even when
all its fields are zero; an empty slice is not written, so it comes back as nil.
User types are numbered from 65, each struct before and each slice after what
it contains, as in a process that meets no other type first.
-/

namespace NexFi.GoGob
open Posix GoJson

def bytesOf (s : String) : Bytes := s.toByteArray.data.toList

def ofBytes (bs : Bytes) : Option String := String.fromUTF8? ⟨bs.toArray⟩

def encodeString (s : String) : Bytes := encodeUint (bytesOf s).length ++ bytesOf s

def parseString (c : Bytes) : Option (String × Bytes) :=
  match parseUint c with
  | none => none
  | some (n, rest) =>
    if rest.length < n then none else (ofBytes (rest.take n)).map fun s => (s, rest.drop n)

/-- Signed integers carry their sign in the lowest bit. -/
def zigzag (n : ℤ) : ℕ := if n < 0 then 2 * (-n - 1).toNat + 1 else 2 * n.toNat

def unzigzag (n : ℕ) : ℤ := if n % 2 = 1 then -(n / 2 : ℕ) - 1 else (n / 2 : ℕ)

def encodeInt (n : ℤ) : Bytes := encodeUint (zigzag n)

def parseInt (c : Bytes) : Option (ℤ × Bytes) := (parseUint c).map fun r => (unzigzag r.1, r.2)

/-- A struct of two fields, `none` standing for one that is left out. -/
def encodeFields : Option Bytes → Option Bytes → Bytes
  | none, none => [0]
  | some a, none => 1 :: a ++ [0]
  | none, some b => 2 :: b ++ [0]
  | some a, some b => 1 :: a ++ 1 :: b ++ [0]

section Fields
variable {α β : Type} (parseA : Bytes → Option (α × Bytes)) (parseB : Bytes → Option (β × Bytes))

def parseEnd : Bytes → Option Bytes
  | 0 :: rest => some rest
  | _ => none

def parseLast (c : Bytes) : Option (β × Bytes) :=
  match parseB c with
  | none => none
  | some (b, rest) => (parseEnd rest).map fun rest => (b, rest)

def parseFields : Bytes → Option ((Option α × Option β) × Bytes)
  | 0 :: rest => some ((none, none), rest)
  | 1 :: rest =>
    match parseA rest with
    | none => none
    | some (a, 1 :: rest) => (parseLast parseB rest).map fun r => ((some a, some r.1), r.2)
    | some (a, rest) => (parseEnd rest).map fun rest => ((some a, none), rest)
  | 2 :: rest => (parseLast parseB rest).map fun r => ((none, some r.1), r.2)
  | _ => none

variable {parseA parseB} {encodeA : α → Bytes} {encodeB : β → Bytes}

theorem parseFields_encode (hA : ∀ a rest, parseA (encodeA a ++ rest) = some (a, rest))
    (hB : ∀ b rest, parseB (encodeB b ++ rest) = some (b, rest)) (a : Option α) (b : Option β)
    (rest : Bytes) :
    parseFields parseA parseB (encodeFields (a.map encodeA) (b.map encodeB) ++ rest) =
      some ((a, b), rest) := by
  have hlast : ∀ b, parseLast parseB (encodeB b ++ 0 :: rest) = some (b, rest) := by
    intro b
    rw [parseLast, hB]
    rfl
  cases a with
  | none =>
    cases b with
    | none => rfl
    | some b => simp [encodeFields, parseFields, hlast]
  | some a =>
    cases b with
    | none => simp [encodeFields, parseFields, hA, parseEnd]
    | some b => simp [encodeFields, parseFields, hA, hlast]

def parseNothing (_ : Bytes) : Option (Empty × Bytes) := none

theorem parseFields_single (hA : ∀ a rest, parseA (encodeA a ++ rest) = some (a, rest))
    (a : Option α) :
    parseFields parseA parseNothing (encodeFields (a.map encodeA) none) = some ((a, none), []) := by
  cases a with
  | none => rfl
  | some a => simp [encodeFields, parseFields, hA, parseEnd]

end Fields

def parseMany {α : Type} (parse : Bytes → Option (α × Bytes)) : ℕ → Bytes → Option (List α × Bytes)
  | 0, c => some ([], c)
  | n + 1, c =>
    match parse c with
    | none => none
    | some (a, rest) => (parseMany parse n rest).map fun r => (a :: r.1, r.2)

def encodeSlice {α : Type} (encode : α → Bytes) (items : List α) : Bytes :=
  encodeUint items.length ++ (items.map encode).flatten

def parseSlice {α : Type} (parse : Bytes → Option (α × Bytes)) (c : Bytes) :
    Option (List α × Bytes) :=
  match parseUint c with
  | none => none
  | some (n, rest) => parseMany parse n rest

theorem ofBytes_bytesOf (s : String) : ofBytes (bytesOf s) = some s := by
  have hbytes : (⟨(bytesOf s).toArray⟩ : ByteArray) = s.toByteArray := rfl
  rw [ofBytes, hbytes, String.fromUTF8?, dif_pos s.isValidUTF8]
  rfl

theorem parseString_encode (s : String) (rest : Bytes) :
    parseString (encodeString s ++ rest) = some (s, rest) := by
  simp [parseString, encodeString, List.append_assoc, parseUint_encode, ofBytes_bytesOf]

theorem unzigzag_zigzag (n : ℤ) : unzigzag (zigzag n) = n := by
  unfold zigzag unzigzag
  split_ifs <;> omega

theorem parseInt_encode (n : ℤ) (rest : Bytes) :
    parseInt (encodeInt n ++ rest) = some (n, rest) := by
  simp [parseInt, encodeInt, parseUint_encode, unzigzag_zigzag]

theorem parseSlice_encode {α : Type} {parse : Bytes → Option (α × Bytes)} {encode : α → Bytes}
    (h : ∀ a rest, parse (encode a ++ rest) = some (a, rest)) (items : List α) (rest : Bytes) :
    parseSlice parse (encodeSlice encode items ++ rest) = some (items, rest) := by
  have hmany : parseMany parse items.length ((items.map encode).flatten ++ rest) =
      some (items, rest) := by
    induction items with
    | nil => rfl
    | cons a items ih => simp [parseMany, h, ih]
  rw [parseSlice, encodeSlice, List.append_assoc, parseUint_encode]
  exact hmany

def nonzeroInt (n : ℤ) : Option ℤ := if n = 0 then none else some n

def nonzeroString (s : String) : Option String := if s = "" then none else some s

theorem nonzeroInt_getD (n : ℤ) : (nonzeroInt n).getD 0 = n := by
  unfold nonzeroInt
  split_ifs with h
  · exact h.symm
  · rfl

theorem nonzeroString_getD (s : String) : (nonzeroString s).getD "" = s := by
  unfold nonzeroString
  split_ifs with h
  · exact h.symm
  · rfl

def encodePosition (p : Position) : Bytes :=
  encodeFields ((nonzeroInt p.x).map encodeInt) ((nonzeroInt p.y).map encodeInt)

def parsePosition (c : Bytes) : Option (Position × Bytes) :=
  (parseFields parseInt parseInt c).map fun r => (⟨r.1.1.getD 0, r.1.2.getD 0⟩, r.2)

def encodeNode (n : Node) : Bytes :=
  encodeFields ((nonzeroString n.name).map encodeString) ((some n.position).map encodePosition)

def parseNode (c : Bytes) : Option (Node × Bytes) :=
  (parseFields parseString parsePosition c).map fun r => (⟨r.1.1.getD "", r.1.2.getD ⟨0, 0⟩⟩, r.2)

theorem parsePosition_encode (p : Position) (rest : Bytes) :
    parsePosition (encodePosition p ++ rest) = some (p, rest) := by
  simp [parsePosition, encodePosition, parseFields_encode parseInt_encode parseInt_encode,
    nonzeroInt_getD]

theorem parseNode_encode (n : Node) (rest : Bytes) :
    parseNode (encodeNode n ++ rest) = some (n, rest) := by
  simp only [parseNode, encodeNode, parseFields_encode parseString_encode parsePosition_encode]
  simp [nonzeroString_getD]

def structId (c : Bytes) : Option Bytes :=
  match c with
  | 0xff :: 0x82 :: rest => some rest
  | _ => none

def structDefinition (id : ℕ) (name : String) (fields : List (String × ℕ)) : Bytes :=
  encodeInt (-id) ++ [3, 1, 1] ++ encodeString name ++ 1 :: encodeInt id ++ [0, 1] ++
    encodeSlice (fun f : String × ℕ => 1 :: encodeString f.1 ++ 1 :: encodeInt f.2 ++ [0]) fields ++
    [0, 0]

def sliceDefinition (id : ℕ) (name : String) (element : ℕ) : Bytes :=
  encodeInt (-id) ++ [2, 1, 1] ++ encodeString name ++ 1 :: encodeInt id ++ [0, 1] ++
    encodeInt element ++ [0, 0]

theorem structDefinition_ne (id : ℕ) (name : String) (fields : List (String × ℕ)) :
    structDefinition id name fields ≠ [] := by
  simp [structDefinition]

theorem sliceDefinition_ne (id : ℕ) (name : String) (element : ℕ) :
    sliceDefinition id name element ≠ [] := by
  simp [sliceDefinition]

def configWire : Wire ConfigData where
  definitions := [structDefinition 65 "ConfigData" [("Title", 6)]]
  value c := 0xff :: 0x82 :: encodeFields ((nonzeroString c.title).map encodeString) none
  parse c := (structId c).bind fun rest =>
    (parseFields parseString parseNothing rest).map fun r => ⟨r.1.1.getD ""⟩
  canon c := c
  definition_ne := by simp [structDefinition_ne]
  parse_nil := rfl
  canon_canon _ := rfl
  parse_value c := by
    simp [structId, parseFields_single parseString_encode, nonzeroString_getD]

def configGob : Gob ConfigData := configWire.gob

/-- A slice that is not empty, as the encoder sees it. -/
def nonempty (nodes : Option (List Node)) : Option (List Node) :=
  match nodes with
  | some (n :: ns) => some (n :: ns)
  | _ => none

def visPositionWire : Wire VisPositionData where
  definitions :=
    [structDefinition 65 "VisPositionData" [("Nodes", 68)],
      sliceDefinition 68 "[]main.Node" 66,
      structDefinition 66 "Node" [("Name", 6), ("Position", 67)],
      structDefinition 67 "Position" [("X", 2), ("Y", 2)]]
  value v := 0xff :: 0x82 :: encodeFields ((nonempty v.nodes).map (encodeSlice encodeNode)) none
  parse c := (structId c).bind fun rest =>
    (parseFields (parseSlice parseNode) parseNothing rest).map fun r => ⟨r.1.1⟩
  canon v := ⟨nonempty v.nodes⟩
  definition_ne := by simp [structDefinition_ne, sliceDefinition_ne]
  parse_nil := rfl
  canon_canon := by
    rintro ⟨_ | _ | ⟨n, ns⟩⟩ <;> rfl
  parse_value v := by
    simp [structId, parseFields_single (parseSlice_encode parseNode_encode)]

def visPositionGob : Gob VisPositionData := visPositionWire.gob

example : configGob.message ⟨"m"⟩ = [6, 0xff, 0x82, 1, 1, 109, 0] := by decide +kernel

end NexFi.GoGob
