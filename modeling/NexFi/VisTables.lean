import Mathlib.Data.List.TakeWhile
import NexFi.FieldText
import NexFi.VisData

/-!
# The tables that vis data is taken from

The mesh driver prints who is reached through whom, and its own clients. What the
server of the vis data reads back are the neighbours that are reached directly, each
with the interface towards it, and the clients. An interface is known by its place in
a list that grows with the interfaces met.
-/

namespace NexFi.VisTables
open FieldText VisData AlfredPacket AlfredServer AlfredClient

section Numbers

def isSpace (c : Char) : Bool := c = ' ' || (9 ≤ c.toNat && c.toNat ≤ 13)

def hexValue (c : Char) : Option ℕ := unhexDigit c.toLower

/-- `%02hhX`: at most two characters, a sign or a base prefix included. -/
def scanByte (text : List Char) : Option (UInt8 × List Char) :=
  match text.dropWhile isSpace with
  | [] => none
  | [c] => (hexValue c).map fun d => (UInt8.ofNat d, [])
  | c :: c' :: rest =>
    if c = '-' then (hexValue c').map fun d => (-UInt8.ofNat d, rest)
    else if c = '+' then (hexValue c').map fun d => (UInt8.ofNat d, rest)
    else if c = '0' ∧ c'.toLower = 'x' then none
    else (hexValue c).map fun d =>
      match hexValue c' with
      | some d' => (UInt8.ofNat (16 * d + d'), rest)
      | none => (UInt8.ofNat d, c' :: rest)

def scanColon : List Char → Option (List Char)
  | ':' :: rest => some rest
  | _ => none

def strToMac (str : List Char) : Option EtherAddr := do
  let (a, str) ← scanByte str
  let (b, str) ← scanByte (← scanColon str)
  let (c, str) ← scanByte (← scanColon str)
  let (d, str) ← scanByte (← scanColon str)
  let (e, str) ← scanByte (← scanColon str)
  let (f, _) ← scanByte (← scanColon str)
  some ⟨a, b, c, d, e, f⟩

def digitsValue (text : List Char) : ℤ := Nat.ofDigitChars 10 (text.takeWhile Char.isDigit) 0

/-- `strtol` to the base ten, which stays within a `long`. -/
def strtol (text : List Char) : ℤ :=
  let value :=
    match text.dropWhile isSpace with
    | '-' :: rest => -digitsValue rest
    | '+' :: rest => digitsValue rest
    | rest => digitsValue rest
  max (-2 ^ 63) (min (2 ^ 63 - 1) value)

end Numbers

section Lists

structure IfaceEntry where
  name : List Char
  mac : EtherAddr

structure Lists where
  ifaceList : List IfaceEntry
  entryList : List VisEntry

variable (getIfMac : List Char → Option EtherAddr)

/-- The place of the interface, at the end if it is new and has an address. Names are compared and
kept as far as their fields reach. -/
def getIfIndex (ifaceList : List IfaceEntry) (ifname : List Char) : Option (ℕ × List IfaceEntry) :=
  match ifaceList.findIdx? fun i => i.name.take 256 = ifname.take 256 with
  | some i => some (i, ifaceList)
  | none => (getIfMac (ifname.take 15)).map fun mac =>
      (ifaceList.length, ifaceList ++ [⟨ifname.take 255, mac⟩])

structure SysIface where
  name : List Char
  meshIface : Option (List Char)
  ifaceStatus : Option (List Char)

def chomp (text : List Char) : List Char := if text.getLast? = some '\n' then text.dropLast else text

/-- The index is not used: the interface is put into the list if it is not there. -/
def registerInterface (interface : List Char) (l : Lists) (i : SysIface) : Lists :=
  match i.meshIface with
  | none => l
  | some content =>
    if chomp content = "none".toList then l
    else if chomp content ≠ interface then l
    else match i.ifaceStatus with
      | none => l
      | some content =>
        if content = "active".toList then
          { l with ifaceList := (getIfIndex getIfMac l.ifaceList i.name).elim l.ifaceList Prod.snd }
        else l

def registerInterfaces (interface : List Char) (l : Lists) (dir : List SysIface) : Lists :=
  dir.foldl (registerInterface getIfMac interface) l

def origDelimiter (c : Char) : Bool := "\t []()".toList.contains c

def parseOrigLine (l : Lists) (line : List Char) : Lists :=
  match fields origDelimiter line with
  | dest :: _ :: tq :: neigh :: iface :: _ =>
    if dest = neigh then
      let tqVal := (strtol tq).bmod (2 ^ 32)
      if tqVal < 1 ∨ 255 < tqVal then l
      else match strToMac dest with
        | none => l
        | some mac => match getIfIndex getIfMac l.ifaceList iface with
          | none => l
          | some (ifindex, ifaceList) =>
            ⟨ifaceList, l.entryList ++ [⟨mac, UInt8.ofNat ifindex, UInt8.ofNat tqVal.toNat⟩]⟩
    else l
  | _ => l

def isNewline (c : Char) : Bool := c = '\n'

def parseOrigList (l : Lists) (fbuf : Option (List Char)) : Lists :=
  match fbuf with
  | none => l
  | some fbuf => ((fields isNewline fbuf).drop 2).foldl (parseOrigLine getIfMac) l

def transtableDelimiter (c : Char) : Bool := c = '\t' || c = ' '

def parseTranstableLine (l : Lists) (line : List Char) : Lists :=
  match ((fields transtableDelimiter line)[1]?).bind strToMac with
  | none => l
  | some mac => { l with entryList := l.entryList ++ [⟨mac, 255, 0⟩] }

def parseTranstableLocal (l : Lists) (fbuf : Option (List Char)) : Lists :=
  match fbuf with
  | none => l
  | some fbuf => ((fields isNewline fbuf).drop 1).foldl parseTranstableLine l

/-- What is published, from what the files hold. -/
def visUpdateData (interface : List Char) (dir : List SysIface) (originators transtable : Option (List Char)) :
    Lists :=
  parseTranstableLocal
    (parseOrigList getIfMac (registerInterfaces getIfMac interface ⟨[], []⟩ dir) originators) transtable

end Lists

section Driver

def tableDelimiter (c : Char) : Bool := origDelimiter c || isNewline c

/-- The name of an interface, without the characters that the tables are split at. -/
structure IfName where
  text : List Char
  short : text.length < 16
  field : IsField tableDelimiter text

def decimal (n : ℕ) : List Char := Nat.toDigits 10 n

def threeDigits (n : ℕ) : List Char :=
  [Nat.digitChar (n / 100 % 10), Nat.digitChar (n / 10 % 10), Nat.digitChar (n % 10)]

/-- How an originator is reached. -/
structure Router where
  addr : EtherAddr
  ifIncoming : IfName
  tqAvg : UInt8

/-- An originator; there may be no router for it, or no information about the router. -/
structure OrigNode where
  orig : EtherAddr
  lastSeenMsecs : ℕ
  router : Option Router
  neighList : List (EtherAddr × UInt8)

def origPrintNeigh (neighList : List (EtherAddr × UInt8)) : List Char :=
  neighList.flatMap fun n =>
    ' ' :: (macText n.1 ++ [' ', '('] ++ (decimal n.2.toNat).leftpad 3 ' ' ++ [')'])

def origLine (o : OrigNode) (r : Router) : List Char :=
  macText o.orig ++ [' '] ++ (decimal (o.lastSeenMsecs / 1000)).leftpad 4 ' ' ++ ['.'] ++
    threeDigits (o.lastSeenMsecs % 1000) ++ ['s', ' ', ' ', ' ', '('] ++
    (decimal r.tqAvg.toNat).leftpad 3 ' ' ++ [')', ' '] ++ macText r.addr ++ [' ', '['] ++
    r.ifIncoming.text.leftpad 10 ' ' ++ [']', ':'] ++ origPrintNeigh o.neighList

/-- The lines, without originators that are not reached. -/
def origLines (nodes : List OrigNode) : List (List Char) :=
  nodes.filterMap fun o =>
    o.router.bind fun r => if r.tqAvg = 0 then none else some (origLine o r)

/-- The soft interface with the primary interface below it. -/
structure MeshIface where
  name : IfName
  primaryIf : IfName
  primaryAddr : EtherAddr

def origHead (mesh : MeshIface) : List Char :=
  "[B.A.T.M.A.N. adv 2016.1, MainIF/MAC: ".toList ++ mesh.primaryIf.text ++ ['/'] ++
    macText mesh.primaryAddr ++ [' ', '('] ++ mesh.name.text ++ " BATMAN_IV)]".toList

def origColumns : List Char :=
  "  Originator      last-seen (#/255)           Nexthop [outgoingIF]:   Potential nexthops ...".toList

def origSeqPrintText (mesh : MeshIface) (nodes : List OrigNode) : List Char :=
  origHead mesh ++ '\n' :: (origColumns ++ '\n' ::
    (((origLines nodes).flatMap fun line => line ++ ['\n']) ++
      if (origLines nodes).isEmpty then "No batman nodes in range ...".toList ++ ['\n'] else []))

/-- A client; `vid` is `none` for untagged traffic. -/
structure LocalEntry where
  addr : EtherAddr
  vid : Option ℕ
  roam : Bool
  noPurge : Bool
  new : Bool
  pending : Bool
  wifi : Bool
  isola : Bool
  lastSeenMsecs : ℕ
  crc : UInt32

def flag (set : Bool) (c : Char) : Char := if set then c else '.'

def crcText (crc : UInt32) : List Char :=
  (if crc = 0 then [] else ['0', 'x']) ++
    ([24, 16, 8, 0] : List UInt32).flatMap fun k => hexByte (crc >>> k).toUInt8

def flags (t : LocalEntry) : List Char :=
  [flag t.roam 'R', flag t.noPurge 'P', flag t.new 'N', flag t.pending 'X', flag t.wifi 'W',
    flag t.isola 'I']

/-- Entries that are never purged are always just seen. -/
def seenMsecs (t : LocalEntry) : ℕ := if t.noPurge then 0 else t.lastSeenMsecs

/-- What a line says of a client behind its address. -/
def localRest (t : LocalEntry) : List Char :=
  (t.vid.elim ['-', '1'] decimal).leftpad 4 ' ' ++ [' ', '['] ++ flags t ++ [']', ' '] ++
    (decimal (seenMsecs t / 1000)).leftpad 3 ' ' ++ ['.'] ++ threeDigits (seenMsecs t % 1000) ++
    [' ', ' ', ' ', '('] ++ crcText t.crc ++ [')']

def localLine (t : LocalEntry) : List Char :=
  [' ', '*', ' '] ++ macText t.addr ++ [' '] ++ localRest t

def localHead (mesh : MeshIface) (ttvn : UInt8) : List Char :=
  "Locally retrieved addresses (from ".toList ++ mesh.name.text ++ ") announced via TT (TTVN: ".toList ++
    decimal ttvn.toNat ++ [')', ':']

def localColumns : List Char := "       Client         VID Flags    Last seen (CRC       )".toList

def localSeqPrintText (mesh : MeshIface) (ttvn : UInt8) (entries : List LocalEntry) : List Char :=
  localHead mesh ttvn ++ '\n' :: (localColumns ++ '\n' ::
    ((entries.map localLine).flatMap fun line => line ++ ['\n']))

inductive IfStatus
  | notInUse | toBeRemoved | inactive | active | toBeActivated

def showIfaceStatus : IfStatus → List Char
  | .toBeRemoved => "disabling\n".toList
  | .inactive => "inactive\n".toList
  | .active => "active\n".toList
  | .toBeActivated => "enabling\n".toList
  | .notInUse => "not in use\n".toList

end Driver

section Digits

theorem hexDigits_spec : ∀ n < 16, isSpace (Nat.digitChar n) = false ∧ Nat.digitChar n ≠ '-' ∧
    Nat.digitChar n ≠ '+' ∧ (Nat.digitChar n).toLower ≠ 'x' ∧ hexValue (Nat.digitChar n) = some n := by
  decide

theorem scanByte_hexByte (b : UInt8) (rest : List Char) : scanByte (hexByte b ++ rest) = some (b, rest) := by
  have hb := b.toNat_lt
  obtain ⟨hspace, hminus, hplus, -, hhi⟩ := hexDigits_spec (b.toNat / 16) (by omega)
  obtain ⟨-, -, -, hx, hlo⟩ := hexDigits_spec (b.toNat % 16) (by omega)
  have htext : (hexByte b ++ rest).dropWhile isSpace =
      Nat.digitChar (b.toNat / 16) :: Nat.digitChar (b.toNat % 16) :: rest := by
    rw [hexByte, List.cons_append, List.dropWhile_cons_of_neg (by simpa using hspace)]
    rfl
  have hprefix : ¬ (Nat.digitChar (b.toNat / 16) = '0' ∧ (Nat.digitChar (b.toNat % 16)).toLower = 'x') :=
    fun h => hx h.2
  have hbyte : UInt8.ofNat (16 * (b.toNat / 16) + b.toNat % 16) = b := by
    rw [show 16 * (b.toNat / 16) + b.toNat % 16 = b.toNat by omega, UInt8.ofNat_toNat]
  unfold scanByte
  rw [htext]
  simp only [if_neg hminus, if_neg hplus, if_neg hprefix, hhi, hlo, Option.map_some, hbyte]

theorem strToMac_macText (mac : EtherAddr) : strToMac (macText mac) = some mac := by
  have htext : macText mac = hexByte mac.octet0 ++ ':' :: (hexByte mac.octet1 ++ ':' ::
      (hexByte mac.octet2 ++ ':' :: (hexByte mac.octet3 ++ ':' :: (hexByte mac.octet4 ++ ':' ::
        (hexByte mac.octet5 ++ []))))) := rfl
  rw [htext, strToMac]
  simp only [scanByte_hexByte, scanColon, Option.bind_eq_bind, Option.bind_some]

theorem isDigit_decimal {n : ℕ} {c : Char} (h : c ∈ decimal n) : c.isDigit = true :=
  Nat.isDigit_of_mem_toDigits (by decide) (by decide) h

theorem isDigit_range {c : Char} (h : c.isDigit = true) : 48 ≤ c.toNat ∧ c.toNat ≤ 57 := by
  simpa [Char.isDigit, UInt32.le_iff_toNat_le] using h

theorem strtol_decimal {n : ℕ} (h : n < 2 ^ 63) : strtol (decimal n) = n := by
  have hdigits : (decimal n).takeWhile Char.isDigit = decimal n :=
    List.takeWhile_eq_self_iff.mpr fun c hc => isDigit_decimal hc
  have hvalue : digitsValue (decimal n) = n := by
    rw [digitsValue, hdigits, decimal, Nat.ofDigitChars_ten_toDigits]
  obtain ⟨c, text, hcons⟩ := List.exists_cons_of_ne_nil (Nat.toDigits_ne_nil (n := n) (b := 10))
  have hc : c.isDigit = true := isDigit_decimal (n := n) (by rw [decimal, hcons]; exact List.mem_cons_self)
  have hrange := isDigit_range hc
  have hspace : ¬ isSpace c = true := by
    have hne : c ≠ ' ' := by
      rintro rfl
      exact absurd hrange (by decide)
    simp only [isSpace, hne, decide_false, Bool.false_or, Bool.and_eq_true, decide_eq_true_eq]
    omega
  have hminus : c ≠ '-' := by
    rintro rfl
    exact absurd hrange (by decide)
  have hplus : c ≠ '+' := by
    rintro rfl
    exact absurd hrange (by decide)
  have hmatch : strtol (decimal n) = max (-2 ^ 63) (min (2 ^ 63 - 1) (digitsValue (decimal n))) := by
    rw [strtol, decimal, hcons, List.dropWhile_cons_of_neg hspace]
    split
    · rename_i heq
      exact absurd (List.cons.inj heq).1 hminus
    · rename_i heq
      exact absurd (List.cons.inj heq).1 hplus
    · rfl
  rw [hmatch, hvalue]
  omega

end Digits

section Fields

theorem tableDelimiter_of_orig (c : Char) (h : origDelimiter c = true) : tableDelimiter c = true := by
  rw [tableDelimiter, h, Bool.true_or]

theorem tableDelimiter_of_newline (c : Char) (h : isNewline c = true) : tableDelimiter c = true := by
  rw [tableDelimiter, h, Bool.or_true]

theorem free_digit {c : Char} (h : c.isDigit = true) : tableDelimiter c = false := by
  have hrange := isDigit_range h
  by_contra hdelim
  rw [Bool.not_eq_false, tableDelimiter, Bool.or_eq_true, origDelimiter, List.contains_iff_mem] at hdelim
  have hmem : c ∈ ['\t', ' ', '[', ']', '(', ')', '\n'] := by
    rcases hdelim with hmem | hnewline
    · exact List.mem_append_left ['\n'] hmem
    · rw [isNewline, decide_eq_true_eq] at hnewline
      exact List.mem_append_right ['\t', ' ', '[', ']', '(', ')'] (List.mem_singleton.mpr hnewline)
  simp only [List.mem_cons, List.not_mem_nil, or_false] at hmem
  rcases hmem with rfl | rfl | rfl | rfl | rfl | rfl | rfl
  all_goals exact absurd hrange (by decide)

theorem free_hexByte (b : UInt8) : Free tableDelimiter (hexByte b) := by
  have hall : ∀ n < 16, tableDelimiter (Nat.digitChar n) = false := by decide
  have hb := b.toNat_lt
  intro c hc
  rcases List.mem_cons.mp hc with rfl | hc
  · exact hall _ (by omega)
  · rw [List.mem_singleton.mp hc]
    exact hall _ (by omega)

theorem field_macText (mac : EtherAddr) : IsField tableDelimiter (macText mac) := by
  have hcolon : Free tableDelimiter [':'] := by simp [Free, tableDelimiter, origDelimiter, isNewline]
  have htext : macText mac = hexByte mac.octet0 ++ ([':'] ++ (hexByte mac.octet1 ++ ([':'] ++
      (hexByte mac.octet2 ++ ([':'] ++ (hexByte mac.octet3 ++ ([':'] ++ (hexByte mac.octet4 ++ ([':'] ++
        hexByte mac.octet5))))))))) := rfl
  refine ⟨by rw [htext]; exact List.cons_ne_nil _ _, ?_⟩
  rw [htext]
  exact (free_hexByte _).append (hcolon.append ((free_hexByte _).append (hcolon.append
    ((free_hexByte _).append (hcolon.append ((free_hexByte _).append (hcolon.append
      ((free_hexByte _).append (hcolon.append (free_hexByte _))))))))))

theorem field_decimal (n : ℕ) : IsField tableDelimiter (decimal n) :=
  ⟨Nat.toDigits_ne_nil, fun _ hc => free_digit (isDigit_decimal hc)⟩

theorem free_threeDigits (n : ℕ) : Free tableDelimiter (threeDigits n) := by
  have hdigit : ∀ n, (Nat.digitChar (n % 10)).isDigit = true := by
    have hall : ∀ d < 10, (Nat.digitChar d).isDigit = true := by decide
    exact fun n => hall _ (Nat.mod_lt n (by decide))
  intro c hc
  simp only [threeDigits, List.mem_cons, List.not_mem_nil, or_false] at hc
  rcases hc with rfl | rfl | rfl
  all_goals exact free_digit (hdigit _)

/-- The fields of a line: who, since when, how well, through whom, and out of which interface. -/
theorem fields_origLine (o : OrigNode) (r : Router) : ∃ seen rest,
    fields origDelimiter (origLine o r) = macText o.orig :: seen :: decimal r.tqAvg.toNat ::
      macText r.addr :: r.ifIncoming.text :: rest := by
  have hspace : origDelimiter ' ' = true := rfl
  have hopen : origDelimiter '(' = true := rfl
  have hclose : origDelimiter ')' = true := rfl
  have hbracket : origDelimiter '[' = true := rfl
  have hend : origDelimiter ']' = true := rfl
  have horig : ∀ mac, IsField origDelimiter (macText mac) :=
    fun mac => (field_macText mac).mono tableDelimiter_of_orig
  have hnum : ∀ n, IsField origDelimiter (decimal n) :=
    fun n => (field_decimal n).mono tableDelimiter_of_orig
  have hname := r.ifIncoming.field.mono tableDelimiter_of_orig
  have hseen : IsField origDelimiter (decimal (o.lastSeenMsecs / 1000) ++
      ('.' :: (threeDigits (o.lastSeenMsecs % 1000) ++ ['s']))) := by
    have hpoint : Free origDelimiter ['.'] := by simp [Free, origDelimiter]
    have hs : Free origDelimiter ['s'] := by simp [Free, origDelimiter]
    exact (hnum _).append
      (hpoint.append (((free_threeDigits _).mono tableDelimiter_of_orig).append hs))
  have hline : origLine o r = macText o.orig ++ ' ' :: ((decimal (o.lastSeenMsecs / 1000)).leftpad 4 ' ' ++
      (('.' :: (threeDigits (o.lastSeenMsecs % 1000) ++ ['s'])) ++ ' ' :: ' ' :: ' ' :: '(' ::
        ((decimal r.tqAvg.toNat).leftpad 3 ' ' ++ ')' :: ' ' :: (macText r.addr ++ ' ' :: '[' ::
          (r.ifIncoming.text.leftpad 10 ' ' ++ ']' :: ':' :: origPrintNeigh o.neighList))))) := by
    simp only [origLine, List.append_assoc, List.cons_append, List.nil_append]
  refine ⟨decimal (o.lastSeenMsecs / 1000) ++ ('.' :: (threeDigits (o.lastSeenMsecs % 1000) ++ ['s'])),
    fields origDelimiter (':' :: origPrintNeigh o.neighList), ?_⟩
  rw [hline, fields_next (horig _) hspace, fields_leftpad hspace, ← List.append_assoc,
    fields_next hseen hspace, fields_cons hspace, fields_cons hspace, fields_cons hopen,
    fields_leftpad hspace, fields_next (hnum _) hclose, fields_cons hspace, fields_next (horig _) hspace,
    fields_cons hbracket, fields_leftpad hspace, fields_next hname hend]

/-- A client is the second field. -/
theorem fields_localLine (t : LocalEntry) : ∃ rest,
    fields transtableDelimiter (localLine t) = ['*'] :: macText t.addr :: rest := by
  have hspace : transtableDelimiter ' ' = true := rfl
  have hstar : IsField transtableDelimiter ['*'] := ⟨by simp, by simp [Free, transtableDelimiter]⟩
  have hmac : IsField transtableDelimiter (macText t.addr) := by
    refine (field_macText t.addr).mono fun c hc => ?_
    rw [transtableDelimiter, Bool.or_eq_true, decide_eq_true_eq, decide_eq_true_eq] at hc
    rcases hc with rfl | rfl
    · rfl
    · rfl
  have hline : localLine t = ' ' :: (['*'] ++ ' ' :: (macText t.addr ++ ' ' :: localRest t)) := by
    simp only [localLine, List.append_assoc, List.cons_append, List.nil_append]
  refine ⟨fields transtableDelimiter (localRest t), ?_⟩
  rw [hline, fields_cons hspace, fields_next hstar hspace, fields_next hmac hspace]

end Fields

section Lines

theorem free_macText (mac : EtherAddr) : Free isNewline (macText mac) :=
  ((field_macText mac).mono tableDelimiter_of_newline).free

theorem free_decimal (n : ℕ) : Free isNewline (decimal n) :=
  ((field_decimal n).mono tableDelimiter_of_newline).free

theorem free_name (name : IfName) : Free isNewline name.text :=
  (name.field.mono tableDelimiter_of_newline).free

theorem free_origPrintNeigh (neighList : List (EtherAddr × UInt8)) :
    Free isNewline (origPrintNeigh neighList) := by
  refine Free.flatMap fun n _ => ?_
  have hblank : Free isNewline [' '] := free_of_all rfl
  exact hblank.append ((((free_macText n.1).append (free_of_all rfl)).append
    ((free_decimal _).leftpad rfl 3)).append (free_of_all rfl))

theorem field_origLine (o : OrigNode) (r : Router) : IsField isNewline (origLine o r) := by
  have hmac := (field_macText o.orig).mono tableDelimiter_of_newline
  have hthree := (free_threeDigits (o.lastSeenMsecs % 1000)).mono tableDelimiter_of_newline
  unfold origLine
  exact (((((((((((hmac.append (free_of_all rfl)).append ((free_decimal _).leftpad rfl 4)).append
    (free_of_all rfl)).append hthree).append (free_of_all rfl)).append
    ((free_decimal _).leftpad rfl 3)).append (free_of_all rfl)).append (free_macText _)).append
    (free_of_all rfl)).append ((free_name _).leftpad rfl 10)).append (free_of_all rfl)).append
    (free_origPrintNeigh _)

theorem free_flags (t : LocalEntry) : Free isNewline (flags t) := by
  have hflag : ∀ set c, isNewline c = false → isNewline (flag set c) = false := by
    intro set c h
    cases set with
    | false => rfl
    | true => exact h
  intro c hc
  simp only [flags, List.mem_cons, List.not_mem_nil, or_false] at hc
  rcases hc with rfl | rfl | rfl | rfl | rfl | rfl
  all_goals exact hflag _ _ rfl

theorem free_crcText (crc : UInt32) : Free isNewline (crcText crc) := by
  have hdigits : Free isNewline
      (([24, 16, 8, 0] : List UInt32).flatMap fun k => hexByte (crc >>> k).toUInt8) :=
    Free.flatMap fun _ _ => (free_hexByte _).mono tableDelimiter_of_newline
  refine Free.append ?_ hdigits
  split_ifs
  · exact free_of_all rfl
  · exact free_of_all rfl

theorem field_localLine (t : LocalEntry) : IsField isNewline (localLine t) := by
  have hstar : IsField isNewline [' ', '*', ' '] := field_of_all rfl rfl
  have hthree := (free_threeDigits (seenMsecs t % 1000)).mono tableDelimiter_of_newline
  have hvid : Free isNewline (t.vid.elim ['-', '1'] decimal) := by
    cases t.vid with
    | none => exact free_of_all rfl
    | some vid => exact free_decimal vid
  have hrest : Free isNewline (localRest t) := by
    unfold localRest
    exact (((((((((hvid.leftpad rfl 4).append (free_of_all rfl)).append (free_flags t)).append
      (free_of_all rfl)).append ((free_decimal _).leftpad rfl 3)).append (free_of_all rfl)).append
      hthree).append (free_of_all rfl)).append (free_crcText _)).append (free_of_all rfl)
  unfold localLine
  exact ((hstar.append (free_macText _)).append (free_of_all rfl)).append hrest

theorem field_origHead (mesh : MeshIface) : IsField isNewline (origHead mesh) := by
  have hstart : IsField isNewline "[B.A.T.M.A.N. adv 2016.1, MainIF/MAC: ".toList :=
    field_of_all rfl rfl
  have hslash : Free isNewline ['/'] := free_of_all rfl
  have hopen : Free isNewline [' ', '('] := free_of_all rfl
  have hend : Free isNewline " BATMAN_IV)]".toList := free_of_all rfl
  exact (((((hstart.append (free_name mesh.primaryIf)).append hslash).append
    (free_macText mesh.primaryAddr)).append hopen).append (free_name mesh.name)).append hend

theorem field_localHead (mesh : MeshIface) (ttvn : UInt8) : IsField isNewline (localHead mesh ttvn) := by
  have hstart : IsField isNewline "Locally retrieved addresses (from ".toList :=
    field_of_all rfl rfl
  have hmiddle : Free isNewline ") announced via TT (TTVN: ".toList := free_of_all rfl
  have hend : Free isNewline [')', ':'] := free_of_all rfl
  exact (((hstart.append (free_name mesh.name)).append hmiddle).append (free_decimal ttvn.toNat)).append hend

theorem lines_origSeqPrintText (mesh : MeshIface) (nodes : List OrigNode) :
    (fields isNewline (origSeqPrintText mesh nodes)).drop 2 =
      if (origLines nodes).isEmpty then ["No batman nodes in range ...".toList] else origLines nodes := by
  have hcolumns : IsField isNewline origColumns := field_of_all rfl (by decide +kernel)
  have hlines : ∀ line ∈ origLines nodes, IsField isNewline line := by
    intro line hline
    obtain ⟨o, -, hrouter⟩ := List.mem_filterMap.mp hline
    obtain ⟨r, -, hsome⟩ := Option.bind_eq_some_iff.mp hrouter
    split at hsome
    · cases hsome
    · rw [← Option.some.inj hsome]
      exact field_origLine o r
  have hnone : IsField isNewline "No batman nodes in range ...".toList := field_of_all rfl rfl
  rw [origSeqPrintText, fields_next (field_origHead mesh) rfl, fields_next hcolumns rfl, List.drop_succ_cons,
    List.drop_succ_cons, List.drop_zero, fields_lines rfl hlines]
  split_ifs with hempty
  · rw [List.isEmpty_iff.mp hempty, fields_next hnone rfl]
    rfl
  · rw [fields_nil, List.append_nil]

theorem lines_localSeqPrintText (mesh : MeshIface) (ttvn : UInt8) (entries : List LocalEntry) :
    (fields isNewline (localSeqPrintText mesh ttvn entries)).drop 1 =
      localColumns :: entries.map localLine := by
  have hcolumns : IsField isNewline localColumns := field_of_all rfl (by decide +kernel)
  have hlines : ∀ line ∈ entries.map localLine, IsField isNewline line := by
    intro line hline
    obtain ⟨t, -, rfl⟩ := List.mem_map.mp hline
    exact field_localLine t
  have hnewline : isNewline '\n' = true := rfl
  have hall := fields_lines hnewline hlines []
  rw [List.append_nil, fields_nil, List.append_nil] at hall
  rw [localSeqPrintText, fields_next (field_localHead mesh ttvn) rfl, fields_next hcolumns rfl, hall]
  rfl

end Lines

end NexFi.VisTables
