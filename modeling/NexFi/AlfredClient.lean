import NexFi.AlfredTables

/-!
# The client of the daemon

A client hands over what it reads from its input, or prints every data set of a type
on a line of its own. Bytes that are no printable characters are escaped, so the
lines can be read back. A read gets as many bytes as it asks for unless the daemon
has closed the socket.
-/

namespace NexFi.AlfredClient
open AlfredServer AlfredPacket AlfredData ChainTable

section Text

def hexByte (b : UInt8) : List Char :=
  [Nat.digitChar (b.toNat / 16), Nat.digitChar (b.toNat % 16)]

def isPrint (b : UInt8) : Bool := 32 ≤ b.toNat && b.toNat < 127

def escape (b : UInt8) : List Char :=
  if b = 34 then ['\\', '"']
  else if b = 92 then ['\\', '\\']
  else if !isPrint b then '\\' :: 'x' :: hexByte b
  else [Char.ofNat b.toNat]

def macText (a : EtherAddr) : List Char := ([':'] : List Char).intercalate (a.octets.map hexByte)

/-- How a line ends: with the version if it is wanted. -/
def lineEnd (verbose : Bool) (b : Block) : List Char :=
  (if verbose then ',' :: ' ' :: Nat.toDigits 10 b.version.toNat else []) ++ [' ', '\x7d', ',', '\n']

def line (verbose : Bool) (b : Block) : List Char :=
  '\x7b' :: ' ' :: '"' :: (macText b.source ++
    ('"' :: ',' :: ' ' :: '"' :: (b.data.flatMap escape ++ '"' :: lineEnd verbose b)))

end Text

section Programs

/-- The input, or as much of it as the buffer holds, from a source that is left empty. -/
def inputBlock (type version : UInt8) (input : Bytes) : Block where
  source := ⟨0, 0, 0, 0, 0, 0⟩
  type := type
  version := version
  data := input.take (maxPayload - 18)
  fits := by
    rw [List.length_take]
    unfold maxPayload
    omega

def alfredClientSetData (id : UInt16) (type version : UInt8) (input : Bytes) : Bytes :=
  pushPacket id 0 (inputBlock type version input).bytes

/-- What is printed of an answer, and what the program returns. -/
def printAnswer (verbose : Bool) : ℕ → Bytes → List Char × ℤ
  | 0, _ => ([], 0)
  | reads + 1, bytes =>
    match takeTlv bytes with
    | none => ([], 0)
    | some (tlv, bytes) =>
      if tlv.type = alfredStatusError then
        match bytes with
        | _ :: _ :: lo :: hi :: _ => ([], (ntohs hi lo).toNat)
        | _ => ([], -1)
      else if tlv.type ≠ alfredPushData then ([], 0)
      else match takeTx bytes with
        | none => ([], 0)
        | some (_, bytes) =>
          match takeBlock bytes with
          | none => ([], 0)
          | some (b, bytes) =>
            if maxPayload - 18 < b.data.length then ([], 0)
            else
              let (text, result) := printAnswer verbose reads bytes
              (line verbose b ++ text, result)

/-- The request is written before, and every packet of the answer has at least a byte. -/
def alfredClientRequestData (verbose : Bool) (answer : Bytes) : List Char × ℤ :=
  printAnswer verbose answer.length answer

end Programs

section Reading

def unhexDigit (c : Char) : Option ℕ :=
  if '0' ≤ c ∧ c ≤ '9' then some (c.toNat - 48)
  else if 'a' ≤ c ∧ c ≤ 'f' then some (c.toNat - 87)
  else none

def unhexByte (hi lo : Char) : Option UInt8 := do
  let hi ← unhexDigit hi
  let lo ← unhexDigit lo
  some (UInt8.ofNat (16 * hi + lo))

/-- One escaped byte. -/
def takeChar : List Char → Option (UInt8 × List Char)
  | [] => none
  | '\\' :: 'x' :: hi :: lo :: rest => (unhexByte hi lo).map fun b => (b, rest)
  | '\\' :: c :: rest => some (UInt8.ofNat c.toNat, rest)
  | c :: rest => some (UInt8.ofNat c.toNat, rest)

/-- The bytes up to the quote. -/
def takeText : ℕ → List Char → Option (List UInt8 × List Char)
  | _, '"' :: rest => some ([], rest)
  | 0, _ => none
  | n + 1, text => do
    let (b, text) ← takeChar text
    let (bytes, text) ← takeText n text
    some (b :: bytes, text)

def takeMacText : List Char → Option (EtherAddr × List Char)
  | a :: a' :: ':' :: b :: b' :: ':' :: c :: c' :: ':' :: d :: d' :: ':' :: e :: e' :: ':' :: f :: f' ::
      rest => do
    some (⟨← unhexByte a a', ← unhexByte b b', ← unhexByte c c', ← unhexByte d d', ← unhexByte e e',
      ← unhexByte f f'⟩, rest)
  | _ => none

/-- The source and the bytes that a line tells of. -/
def takeLine : List Char → Option ((EtherAddr × List UInt8) × List Char)
  | '\x7b' :: ' ' :: '"' :: text => do
    let (source, text) ← takeMacText text
    let (data, text) ← takeText text.length (text.drop 4)
    some ((source, data), (text.dropWhile (· ≠ '\n')).drop 1)
  | _ => none

def readLines : ℕ → List Char → List (EtherAddr × List UInt8)
  | 0, _ => []
  | n + 1, text =>
    match takeLine text with
    | none => []
    | some (told, text) => told :: readLines n text

end Reading

section RoundTrip

theorem unhexDigit_digitChar {n : ℕ} (h : n < 16) : unhexDigit (Nat.digitChar n) = some n := by
  have hall : ∀ n < 16, unhexDigit (Nat.digitChar n) = some n := by decide
  exact hall n h

theorem unhexByte_hexByte (b : UInt8) :
    unhexByte (Nat.digitChar (b.toNat / 16)) (Nat.digitChar (b.toNat % 16)) = some b := by
  have hb := b.toNat_lt
  rw [unhexByte, unhexDigit_digitChar (by omega), unhexDigit_digitChar (by omega)]
  simp only [Option.bind_eq_bind, Option.bind_some, Option.some.injEq]
  rw [show 16 * (b.toNat / 16) + b.toNat % 16 = b.toNat by omega, UInt8.ofNat_toNat]

theorem toNat_ofNat_byte (b : UInt8) : (Char.ofNat b.toNat).toNat = b.toNat := by
  have hb := b.toNat_lt
  have hvalid : b.toNat.isValidChar := .inl (by omega)
  rw [Char.ofNat, dif_pos hvalid]
  rfl

theorem ofNat_byte_ne {b : UInt8} {c : Char} (h : b.toNat ≠ c.toNat) : Char.ofNat b.toNat ≠ c := by
  rintro rfl
  exact h (toNat_ofNat_byte b).symm

theorem takeChar_cons {c : Char} (h : c ≠ '\\') (rest : List Char) :
    takeChar (c :: rest) = some (UInt8.ofNat c.toNat, rest) := by
  unfold takeChar
  split
  · rename_i heq
    cases heq
  · rename_i heq
    exact absurd (List.cons.inj heq).1 h
  · rename_i heq
    exact absurd (List.cons.inj heq).1 h
  · rename_i heq
    obtain ⟨rfl, rfl⟩ := List.cons.inj heq
    rfl

theorem takeChar_escape (b : UInt8) (rest : List Char) : takeChar (escape b ++ rest) = some (b, rest) := by
  unfold escape
  split_ifs with hquote hbackslash hprint
  · rw [hquote]
    rfl
  · rw [hbackslash]
    rfl
  · simp only [hexByte, List.cons_append, List.nil_append, takeChar, unhexByte_hexByte, Option.map_some]
  · have hne : b.toNat ≠ '\\'.toNat := fun h => hbackslash (UInt8.toNat_inj.mp h)
    rw [List.cons_append, List.nil_append, takeChar_cons (ofNat_byte_ne hne), toNat_ofNat_byte,
      UInt8.ofNat_toNat]

/-- An escaped byte does not look like the end. -/
theorem escape_eq_cons (b : UInt8) : ∃ c text, escape b = c :: text ∧ c ≠ '"' := by
  unfold escape
  split_ifs with hquote
  · exact ⟨_, _, rfl, by decide⟩
  · exact ⟨_, _, rfl, by decide⟩
  · exact ⟨_, _, rfl, by decide⟩
  · exact ⟨_, _, rfl, ofNat_byte_ne fun h => hquote (UInt8.toNat_inj.mp h)⟩

theorem takeText_escape (bytes : List UInt8) (rest : List Char) {n : ℕ} (h : bytes.length ≤ n) :
    takeText n (bytes.flatMap escape ++ '"' :: rest) = some (bytes, rest) := by
  induction bytes generalizing n with
  | nil => cases n <;> rfl
  | cons b bytes ih =>
    obtain ⟨c, text, hescape, hne⟩ := escape_eq_cons b
    have hchar := takeChar_escape b (bytes.flatMap escape ++ '"' :: rest)
    cases n with
    | zero => cases h
    | succ n =>
      rw [List.flatMap_cons, List.append_assoc]
      rw [hescape, List.cons_append] at hchar ⊢
      rw [takeText, hchar]
      · simp only [Option.bind_eq_bind, Option.bind_some, ih (Nat.le_of_succ_le_succ h)]
      · exact fun _ hcons => hne (List.cons.inj hcons).1

theorem takeMacText_macText (a : EtherAddr) (rest : List Char) :
    takeMacText (macText a ++ rest) = some (a, rest) := by
  simp only [macText, EtherAddr.octets, hexByte, List.intercalate, List.map_cons, List.map_nil,
    List.intersperse_cons_cons, List.intersperse_singleton, List.flatten_cons, List.flatten_nil,
    List.cons_append, List.nil_append, takeMacText, unhexByte_hexByte, Option.bind_eq_bind,
    Option.bind_some]

theorem lineEnd_eq (verbose : Bool) (b : Block) :
    ∃ text : List Char, lineEnd verbose b = text ++ ['\n'] ∧ ∀ c ∈ text, c ≠ '\n' := by
  have hclose : ∀ c ∈ ([' ', '\x7d', ','] : List Char), c ≠ '\n' := by simp
  cases verbose with
  | false => exact ⟨[' ', '\x7d', ','], rfl, hclose⟩
  | true =>
    refine ⟨(',' :: ' ' :: Nat.toDigits 10 b.version.toNat) ++ [' ', '\x7d', ','], ?_, fun c hc => ?_⟩
    · rw [lineEnd, if_pos rfl, List.append_assoc]
      rfl
    · rcases List.mem_append.mp hc with hc | hc
      · rcases List.mem_cons.mp hc with rfl | hc
        · decide
        · rcases List.mem_cons.mp hc with rfl | hc
          · decide
          · rintro rfl
            have hdigit := Nat.isDigit_of_mem_toDigits (by decide) (by decide) hc
            exact absurd hdigit (by decide)
      · exact hclose c hc

theorem dropWhile_lineEnd (verbose : Bool) (b : Block) (rest : List Char) :
    ((lineEnd verbose b ++ rest).dropWhile (· ≠ '\n')).drop 1 = rest := by
  obtain ⟨text, heq, hne⟩ := lineEnd_eq verbose b
  rw [heq, List.append_assoc, List.dropWhile_append_of_pos (fun c hc => by simpa using hne c hc)]
  rfl

theorem length_escape_pos (b : UInt8) : 0 < (escape b).length := by
  obtain ⟨c, text, hescape, -⟩ := escape_eq_cons b
  rw [hescape]
  exact Nat.succ_pos _

theorem takeLine_line (verbose : Bool) (b : Block) (rest : List Char) :
    takeLine (line verbose b ++ rest) = some ((b.source, b.data), rest) := by
  have hlength := PackedRecords.length_le_length_flatMap length_escape_pos b.data
  simp only [line, List.cons_append, List.append_assoc, takeLine, takeMacText_macText,
    Option.bind_eq_bind, Option.bind_some, List.drop_succ_cons, List.drop_zero]
  rw [takeText_escape b.data]
  · simp only [Option.bind_some, dropWhile_lineEnd]
  · simp only [List.length_cons, List.length_append]
    omega

theorem readLines_lines (verbose : Bool) (bs : List Block) {n : ℕ} (h : bs.length ≤ n) :
    readLines n (bs.flatMap (line verbose)) = bs.map fun b => (b.source, b.data) := by
  induction bs generalizing n with
  | nil => cases n <;> rfl
  | cons b bs ih =>
    cases n with
    | zero => cases h
    | succ n =>
      rw [List.flatMap_cons, readLines, takeLine_line]
      simp only [ih (Nat.le_of_succ_le_succ h), List.map_cons]

end RoundTrip

section Answers
variable {env : Env} {g : Globals} {sock : ℕ} {id : UInt16} {requestedType : UInt8}

/-- What a client can read. -/
def written (sock : ℕ) (out : List Output) : Bytes :=
  out.flatMap fun
    | .write sock' buf => if sock' = sock then buf else []
    | _ => []

/-- The data sets that a client is told of. -/
def requested (g : Globals) (requestedType : UInt8) : List Dataset :=
  g.dataHash.entries.filter fun d => d.data.type = requestedType && Fits d.data

theorem printAnswer_pushPacket (verbose : Bool) (n : ℕ) {b : Block} (hb : Fits b) (seqno : UInt16)
    (rest : Bytes) : printAnswer verbose (n + 1) (pushPacket id seqno b.bytes ++ rest) =
      (line verbose b ++ (printAnswer verbose n rest).1, (printAnswer verbose n rest).2) := by
  have htlv : takeTlv (pushPacket id seqno b.bytes ++ rest) =
      some (⟨alfredPushData, alfredVersion, UInt16.ofNat (htons id ++ (htons seqno ++ b.bytes)).length⟩,
        htons id ++ (htons seqno ++ (b.bytes ++ rest))) := by
    rw [pushPacket, packet, List.append_assoc, takeTlv_bytes, List.append_assoc, List.append_assoc]
  have hsize : ¬ maxPayload - 18 < b.data.length := by
    have hroom : b.data.length + 10 ≤ room := hb
    unfold room at hroom
    omega
  rw [printAnswer, htlv]
  simp only [show ¬ alfredPushData = alfredStatusError by decide, ne_eq, not_true_eq_false, if_false,
    takeTx_htons, takeBlock_bytes, if_neg hsize]

theorem printAnswer_packets (verbose : Bool) {packets : List (UInt16 × Block)}
    (hfits : ∀ p ∈ packets, Fits p.2) {n : ℕ} (hn : packets.length ≤ n) :
    printAnswer verbose n (packets.flatMap fun p => pushPacket id p.1 p.2.bytes) =
      (packets.flatMap fun p => line verbose p.2, 0) := by
  induction packets generalizing n with
  | nil => cases n <;> rfl
  | cons p packets ih =>
    cases n with
    | zero => cases hn
    | succ n =>
      have hrest := ih (fun q hq => hfits q (List.mem_cons_of_mem p hq)) (Nat.le_of_succ_le_succ hn)
      rw [List.flatMap_cons, printAnswer_pushPacket verbose n (hfits p List.mem_cons_self), hrest,
        List.flatMap_cons]

/-- The packets of an answer, one for each data set. -/
def numbered (ds : List Dataset) : List (UInt16 × Block) := ds.mapIdx fun i d => (UInt16.ofNat i, d.data)

theorem snd_numbered (ds : List Dataset) : (numbered ds).map Prod.snd = ds.map Dataset.data := by
  exact List.ext_getElem (by simp [numbered]) fun i _ _ => by simp [numbered]

theorem numbered_requested {p : UInt16 × Block} (hp : p ∈ numbered (requested g requestedType)) :
    Fits p.2 ∧ p.2.type = requestedType := by
  have hdata : p.2 ∈ (requested g requestedType).map Dataset.data := by
    rw [← snd_numbered]
    exact List.mem_map_of_mem hp
  obtain ⟨d, hd, heq⟩ := List.mem_map.mp hdata
  have hkept := (List.mem_filter.mp hd).2
  rw [Bool.and_eq_true, decide_eq_true_eq, decide_eq_true_eq] at hkept
  rw [← heq]
  exact ⟨hkept.2, hkept.1⟩

theorem length_le_length_answer (id : UInt16) (packets : List (UInt16 × Block)) :
    packets.length ≤ (packets.flatMap fun p => pushPacket id p.1 p.2.bytes).length := by
  have hpacket : ∀ p : UInt16 × Block, 0 < (pushPacket id p.1 p.2.bytes).length := fun _ => Nat.succ_pos _
  exact PackedRecords.length_le_length_flatMap hpacket packets

theorem written_reply (hwrites : (requested g requestedType).length ≤ env.writes) :
    written sock (unixSockReqDataReply env g sock id requestedType) =
      (numbered (requested g requestedType)).flatMap fun p => pushPacket id p.1 p.2.bytes := by
  have hreplies : unixSockReqDataReply env g sock id requestedType =
      (numbered (requested g requestedType)).map
        (fun p => Output.write sock (pushPacket id p.1 p.2.bytes)) ++ [.close sock] := by
    rw [unixSockReqDataReply, List.take_of_length_le]
    · congr 1
      exact List.ext_getElem (by simp [numbered, requested]) fun i _ _ => by simp [numbered, requested]
    · rwa [List.length_mapIdx]
  rw [hreplies, written, List.flatMap_append, List.flatMap_map]
  simp

/-- All the data sets of the type are printed. -/
theorem alfredClientRequestData_reply (verbose : Bool)
    (hwrites : (requested g requestedType).length ≤ env.writes) :
    alfredClientRequestData verbose (written sock (unixSockReqDataReply env g sock id requestedType)) =
      (((requested g requestedType).map Dataset.data).flatMap (line verbose), 0) := by
  have hfits : ∀ p ∈ numbered (requested g requestedType), Fits p.2 := fun p hp => (numbered_requested hp).1
  rw [alfredClientRequestData, written_reply hwrites, printAnswer_packets verbose hfits (length_le_length_answer id _),
    ← snd_numbered, List.flatMap_map]

end Answers

section Steps
variable (env : Env) {g : Globals} (sock : ℕ) (id : UInt16)

theorem fits_inputBlock (type version : UInt8) (input : Bytes) : Fits (inputBlock type version input) := by
  have hlength : (inputBlock type version input).data.length ≤ maxPayload - 18 :=
    List.length_take_le ..
  change (inputBlock type version input).data.length + 10 ≤ room
  unfold maxPayload at hlength
  unfold room maxPayload
  omega

theorem length_setData_le (type version : UInt8) (input : Bytes) :
    (alfredClientSetData id type version input).length ≤ maxPayload := by
  have hroom : (inputBlock type version input).size ≤ room := fits_inputBlock type version input
  simp only [alfredClientSetData, pushPacket, packet, Tlv.bytes, List.length_append, List.length_cons,
    length_htons, Block.length_bytes]
  unfold room at hroom
  unfold maxPayload at hroom ⊢
  omega

/-- The block that a node keeps for its client. -/
def ownBlock (i : Interface) (type version : UInt8) (input : Bytes) : Block :=
  { inputBlock type version input with source := i.hwaddr }

/-- A client that does not say where its data is from hands it over as that of the node. -/
theorem step_pushBlock {i : Interface} (hinterface : firstInterface g = some i) {b : Block} (hfits : Fits b)
    (hempty : isValidEtherAddr b.source = false) :
    stepTo g (env, .client sock (pushPacket id 0 b.bytes)) =
      { g with dataHash := g.dataHash.put ⟨{ b with source := i.hwaddr }, env.now, .sourceLocal⟩ } := by
  have hsource : clientSource g i b.source = some i.hwaddr := by
    rw [clientSource, hempty]
    rfl
  have htlv : takeTlv (pushPacket id 0 b.bytes) = some (⟨alfredPushData, alfredVersion,
      UInt16.ofNat (htons id ++ (htons 0 ++ b.bytes)).length⟩, htons id ++ (htons 0 ++ b.bytes)) :=
    takeTlv_packet _ _
  have hroom : b.data.length + 10 ≤ room := hfits
  have hbody : (htons id ++ (htons 0 ++ b.bytes)).length = b.data.length + 14 := by
    simp only [List.length_append, length_htons, b.length_bytes, Block.size]
    omega
  have hlength : (UInt16.ofNat (b.data.length + 14)).toNat = b.data.length + 14 := by
    unfold room maxPayload at hroom
    rw [UInt16.toNat_ofNat', Nat.mod_eq_of_lt (by omega)]
  have hblock : takeBlock (((htons id ++ (htons 0 ++ b.bytes)).take (b.data.length + 14)).drop 4) =
      some (b, []) := by
    rw [List.take_of_length_le hbody.le]
    simpa [htons] using takeBlock_bytes b []
  simp only [stepTo, step, unixSockRead, htlv, hbody, hlength, lt_irrefl, if_false, ne_eq,
    not_true_eq_false, if_true, unixSockAddData, hinterface, show ¬ b.data.length + 14 < 4 by omega,
    hblock, hsource]

theorem step_setData {i : Interface} (hinterface : firstInterface g = some i) (type version : UInt8)
    (input : Bytes) : stepTo g (env, .client sock (alfredClientSetData id type version input)) =
      { g with dataHash := g.dataHash.put ⟨ownBlock i type version input, env.now, .sourceLocal⟩ } := by
  have hempty : isValidEtherAddr ⟨0, 0, 0, 0, 0, 0⟩ = false := by decide
  exact step_pushBlock env sock id hinterface (fits_inputBlock type version input) hempty

theorem step_requestPacket (requestedType : UInt8) :
    step env g (.client sock (requestPacket requestedType id)) =
      unixSockReqData env g sock ⟨alfredRequest, alfredVersion, 3⟩ (requestedType :: htons id) := by
  have htlv := takeTlv_packet alfredRequest (requestedType :: htons id)
  simp only [step, unixSockRead, requestPacket, htlv]
  rfl

theorem step_request (hhere : g.opmode = .master ∨ g.bestServer = none ∨ firstInterface g = none)
    (requestedType : UInt8) : step env g (.client sock (requestPacket requestedType id)) =
      (g, unixSockReqDataReply env g sock id requestedType) := by
  have hid : ntohs (UInt8.ofNat (id.toNat / 256)) id.toUInt8 = id := ntohs_htons id
  rw [step_requestPacket]
  simp only [htons]
  unfold unixSockReqData
  simp only [hid, ne_eq, not_true_eq_false, if_false]
  rcases hhere with hmaster | hnone | hnone
  · cases g.bestServer <;> cases firstInterface g <;> simp only [hmaster, if_true]
  · simp only [hnone]
  · cases g.bestServer <;> simp only [hnone]

end Steps

section Together
variable {g : Globals}

theorem requested_eq (hg : Running g) (requestedType : UInt8) : requested g requestedType =
    g.dataHash.entries.filter fun d => d.data.type = requestedType := by
  refine List.filter_congr fun d hd => ?_
  have hfits : Fits d.data := hg.sendable.data _ d ((Table.mem_entries _).mp hd)
  rw [decide_eq_true hfits, Bool.and_true]

/-- The lines that a text holds. -/
def readAll (text : List Char) : List (EtherAddr × List UInt8) := readLines text.length text

theorem readAll_lines (verbose : Bool) (bs : List Block) :
    readAll (bs.flatMap (line verbose)) = bs.map fun b => (b.source, b.data) := by
  have hline : ∀ b : Block, 0 < (line verbose b).length := fun _ => Nat.succ_pos _
  exact readLines_lines verbose bs (PackedRecords.length_le_length_flatMap hline bs)

/-- The node answers its clients from its own table. -/
def Here (g : Globals) : Prop := g.opmode = .master ∨ g.bestServer = none ∨ firstInterface g = none

/-- What a client prints for a request. -/
def printed (verbose : Bool) (env : Env) (g : Globals) (sock : ℕ) (id : UInt16) (requestedType : UInt8) :
    List Char :=
  (alfredClientRequestData verbose
    (written sock (step env g (.client sock (requestPacket requestedType id))).2)).1

theorem readAll_reply (hg : Running g) {env : Env} (hwrites : g.dataHash.entries.length ≤ env.writes)
    (verbose : Bool) (sock : ℕ) (id : UInt16) (requestedType : UInt8) :
    readAll (alfredClientRequestData verbose
        (written sock (unixSockReqDataReply env g sock id requestedType))).1 =
      (g.dataHash.entries.filter fun d => d.data.type = requestedType).map
        fun d => (d.data.source, d.data.data) := by
  have hall : (requested g requestedType).length ≤ env.writes :=
    (List.length_filter_le _ _).trans hwrites
  rw [alfredClientRequestData_reply verbose hall, readAll_lines, List.map_map, requested_eq hg]
  rfl

/-- What is printed can be read back, and is the source and the bytes of every data set of the type
that the node holds, each once and unaltered. -/
theorem request_prints_table (hg : Running g) (hhere : Here g) {env : Env}
    (hwrites : g.dataHash.entries.length ≤ env.writes) (verbose : Bool) (sock : ℕ) (id : UInt16)
    (requestedType : UInt8) : readAll (printed verbose env g sock id requestedType) =
      (g.dataHash.entries.filter fun d => d.data.type = requestedType).map
        fun d => (d.data.source, d.data.data) := by
  rw [printed, step_request env sock id hhere]
  exact readAll_reply hg hwrites verbose sock id requestedType

/-- A data set of the node itself is kept until a client hands over data of the type again or it is
too old. -/
theorem local_run_kept {d : Dataset} (hfind : g.dataHash.find (blockKey d.data) = some d)
    (hlocal : d.dataSource = .sourceLocal) {xs : List (Env × Event)}
    (hclients : ∀ x ∈ xs, ∀ sock buf b, x.2 = .client sock buf → ReadsData buf b → b.type ≠ d.data.type)
    (hfresh : ∀ x ∈ xs, ∀ lost, x.2 = .round lost →
      expired x.1.now d.lastSeen alfredDataTimeout = false) :
    (run g xs).dataHash.find (blockKey d.data) = some d :=
  run_induction (P := fun g => g.dataHash.find (blockKey d.data) = some d)
    (Q := fun x => (∀ sock buf b, x.2 = .client sock buf → ReadsData buf b → b.type ≠ d.data.type) ∧
      ∀ lost, x.2 = .round lost → expired x.1.now d.lastSeen alfredDataTimeout = false)
    (fun _ x h hx => (step_change x.1 _ x.2).keeps h hlocal hx.1 hx.2)
    (fun x hx => ⟨hclients x hx, hfresh x hx⟩) hfind

/-- What a client hands over to a node is printed for every later client that asks for the type,
under the address of the node and with as many of the bytes as a packet holds, until a client hands
over data of the type again or it is too old. -/
theorem set_then_printed (hg : Running g) {i : Interface} (hinterface : firstInterface g = some i)
    {env : Env} (sock : ℕ) (id : UInt16) (type version : UInt8) (input : Bytes)
    {xs : List (Env × Event)} (hxs : ∀ x ∈ xs, Readable x.2)
    (hclients : ∀ x ∈ xs, ∀ sock buf b, x.2 = .client sock buf → ReadsData buf b → b.type ≠ type)
    (hfresh : ∀ x ∈ xs, ∀ lost, x.2 = .round lost →
      expired x.1.now env.now alfredDataTimeout = false) {g' : Globals}
    (hg' : g' = run g ((env, .client sock (alfredClientSetData id type version input)) :: xs))
    (hhere : Here g') {env' : Env} (hwrites : g'.dataHash.entries.length ≤ env'.writes)
    (verbose : Bool) (sock' : ℕ) (id' : UInt16) :
    (i.hwaddr, input.take (maxPayload - 18)) ∈ readAll (printed verbose env' g' sock' id' type) := by
  have hset : (stepTo g (env, .client sock (alfredClientSetData id type version input))).dataHash.find
      (i.hwaddr, type) = some ⟨ownBlock i type version input, env.now, .sourceLocal⟩ := by
    rw [step_setData env sock id hinterface]
    exact Table.find_put_self _ _
  have hkept : g'.dataHash.find (i.hwaddr, type) =
      some ⟨ownBlock i type version input, env.now, .sourceLocal⟩ := by
    rw [hg']
    exact local_run_kept (d := ⟨ownBlock i type version input, env.now, .sourceLocal⟩) hset rfl hclients hfresh
  have hrunning : Running g' := by
    rw [hg']
    refine hg.run fun x hx => ?_
    rcases List.mem_cons.mp hx with rfl | hx
    · exact length_setData_le id type version input
    · exact hxs x hx
  rw [printed, step_request env' sock' id' hhere, readAll_reply hrunning hwrites]
  refine List.mem_map.mpr ⟨⟨ownBlock i type version input, env.now, .sourceLocal⟩, ?_, rfl⟩
  rw [List.mem_filter, Table.mem_entries]
  exact ⟨hkept, decide_eq_true rfl⟩

end Together

section Sample

def sampleStart : Globals := run (globalsInit ⟨.master, [97], [98], none⟩ ⟨0, 0⟩) (sampleHanded.take 1)

theorem running_sampleStart : Running sampleStart := by
  refine ⟨_, _, sampleHanded.take 1, fun x hx => ?_, rfl⟩
  rw [List.mem_singleton.mp hx]
  trivial

def sampleReader : Env := ⟨⟨0, 0⟩, fun _ => 0, fun _ => 0, 9⟩

theorem request_prints_table_sample :
    readAll (printed true sampleReader sampleHolder 5 3 66) =
      (sampleHolder.dataHash.entries.filter fun d => d.data.type = 66).map
        fun d => (d.data.source, d.data.data) :=
  request_prints_table running_sampleHolder (.inl rfl) (by decide) true 5 3 66

theorem set_then_printed_sample : ((⟨2, 0, 0, 0, 0, 9⟩ : EtherAddr), [104, 105].take (maxPayload - 18)) ∈
    readAll (printed false sampleReader
      (run sampleStart ((sampleEnv, .client 4 (alfredClientSetData 7 66 1 [104, 105])) :: sampleOther))
      5 3 66) := by
  refine set_then_printed running_sampleStart
    (i := ⟨[97], ⟨2, 0, 0, 0, 0, 9⟩, macToIpv6 ⟨2, 0, 0, 0, 0, 9⟩, 3, true, Table.empty⟩) rfl 4 7 66 1
    [104, 105] (fun x hx => ?_) (fun x hx sock buf b he => ?_) (fun x hx lost he => ?_) rfl (.inl rfl)
    (by decide) false 5 3
  all_goals rcases List.mem_cons.mp hx with rfl | hx
  · exact (by decide : (pushPacket 6 0 otherBlock.bytes).length ≤ maxPayload)
  · rw [List.mem_singleton.mp hx]
    exact (by decide : (statusPacket alfredStatusTxend 6 1).length ≤ maxPayload)
  · cases he
  · rw [List.mem_singleton.mp hx] at he
    cases he
  · cases he
  · rw [List.mem_singleton.mp hx] at he
    cases he

end Sample

end NexFi.AlfredClient
