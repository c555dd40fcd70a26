import Mathlib.Data.Nat.Digits.Lemmas
import NexFi.GobStream

/-!
# The gob wire format

Unsigned integers below 128 are one byte; larger ones are preceded by their
length in bytes, negated. A message is a length and that many bytes, and an
encoding is the messages of the type definitions followed by one value message.
All parsers read a prefix and return the rest, so a proper prefix of an encoding
is never mistaken for one.
-/

namespace NexFi.Posix

/-- Reads `1 … 1 0`. -/
def parseUnary : Bytes → Option (ℕ × Bytes)
  | [] => none
  | b :: bs => if b = 0 then some (0, bs) else (parseUnary bs).map fun r => (r.1 + 1, r.2)

def bigEndian (n : ℕ) : Bytes := (Nat.digits 256 n).reverse.map UInt8.ofNat

def ofBigEndian (bs : Bytes) : ℕ := Nat.ofDigits 256 (bs.map UInt8.toNat).reverse

/-- Numbers beyond eight bytes do not occur; they get a form of their own, so
that every number has one. -/
def encodeUint (n : ℕ) : Bytes :=
  if n < 128 then [UInt8.ofNat n]
  else if (bigEndian n).length ≤ 8 then UInt8.ofNat (256 - (bigEndian n).length) :: bigEndian n
  else 128 :: (List.replicate n 1 ++ [0])

def parseUint : Bytes → Option (ℕ × Bytes)
  | [] => none
  | b :: bs =>
    if b.toNat < 128 then some (b.toNat, bs)
    else if 256 - b.toNat ≤ 8 then
      if bs.length < 256 - b.toNat then none
      else some (ofBigEndian (bs.take (256 - b.toNat)), bs.drop (256 - b.toNat))
    else parseUnary bs

theorem parseUnary_encode (n : ℕ) (rest : Bytes) :
    parseUnary (List.replicate n 1 ++ [0] ++ rest) = some (n, rest) := by
  induction n with
  | zero => rfl
  | succ n ih =>
    rw [List.replicate_succ, List.cons_append, List.cons_append, parseUnary, if_neg (by decide), ih]
    rfl

theorem parseUnary_extend {c : Bytes} {n : ℕ} {r : Bytes} (h : parseUnary c = some (n, r))
    (t : Bytes) : parseUnary (c ++ t) = some (n, r ++ t) := by
  induction c generalizing n with
  | nil => cases h
  | cons b bs ih =>
    rw [List.cons_append, parseUnary]
    rw [parseUnary] at h
    split_ifs at h ⊢ with hb
    · cases h
      rfl
    · obtain ⟨⟨m, r'⟩, hbs, heq⟩ := Option.map_eq_some_iff.mp h
      cases heq
      rw [ih hbs]
      rfl

theorem ofBigEndian_bigEndian (n : ℕ) : ofBigEndian (bigEndian n) = n := by
  have hbytes : ((Nat.digits 256 n).reverse.map UInt8.ofNat).map UInt8.toNat =
      (Nat.digits 256 n).reverse := by
    rw [List.map_map]
    refine (List.map_congr_left fun d hd => ?_).trans (List.map_id _)
    have hlt : d < 256 := Nat.digits_lt_base (by decide) (List.mem_reverse.mp hd)
    simp [Nat.mod_eq_of_lt hlt]
  rw [ofBigEndian, bigEndian, hbytes, List.reverse_reverse, Nat.ofDigits_digits]

theorem bigEndian_length_pos {n : ℕ} (h : n ≠ 0) : 0 < (bigEndian n).length := by
  simp [bigEndian, List.length_pos_iff, Nat.digits_eq_nil_iff_eq_zero, h]

theorem toNat_ofNat_of_lt {n : ℕ} (h : n < 256) : (UInt8.ofNat n).toNat = n := by
  rw [UInt8.toNat_ofNat', Nat.mod_eq_of_lt h]

theorem parseUint_encode (n : ℕ) (rest : Bytes) :
    parseUint (encodeUint n ++ rest) = some (n, rest) := by
  unfold encodeUint
  split_ifs with hsmall hlen
  · simp [parseUint, toNat_ofNat_of_lt (show n < 256 by omega), hsmall]
  · have hpos := bigEndian_length_pos (show n ≠ 0 by omega)
    have hvalue := ofBigEndian_bigEndian n
    generalize bigEndian n = bytes at hlen hpos hvalue
    have hsub : 256 - (256 - bytes.length) = bytes.length := by omega
    have hlong : ¬ (bytes ++ rest).length < bytes.length := by simp
    rw [List.cons_append, parseUint, toNat_ofNat_of_lt (by omega), hsub, if_neg (by omega),
      if_pos hlen, if_neg hlong, List.take_left, List.drop_left, hvalue]
  · rw [List.cons_append, parseUint, if_neg (by decide), if_neg (by decide), parseUnary_encode]

theorem parseUint_extend {c : Bytes} {n : ℕ} {r : Bytes} (h : parseUint c = some (n, r))
    (t : Bytes) : parseUint (c ++ t) = some (n, r ++ t) := by
  cases c with
  | nil => cases h
  | cons b bs =>
    rw [parseUint] at h
    rw [List.cons_append, parseUint]
    by_cases hsmall : b.toNat < 128
    · rw [if_pos hsmall] at h ⊢
      cases h
      rfl
    · rw [if_neg hsmall] at h ⊢
      by_cases hk : 256 - b.toNat ≤ 8
      · rw [if_pos hk] at h ⊢
        split_ifs at h with hlen
        cases h
        have hle : 256 - b.toNat ≤ bs.length := Nat.le_of_not_lt hlen
        have hlong : ¬ (bs ++ t).length < 256 - b.toNat := by
          rw [List.length_append]
          omega
        rw [if_neg hlong, List.take_append_of_le_length hle, List.drop_append_of_le_length hle]
      · rw [if_neg hk] at h ⊢
        exact parseUnary_extend h t

def frame (payload : Bytes) : Bytes := encodeUint payload.length ++ payload

def parseFrame (c : Bytes) : Option (Bytes × Bytes) :=
  match parseUint c with
  | none => none
  | some (n, rest) => if rest.length < n then none else some (rest.take n, rest.drop n)

theorem parseFrame_frame (payload rest : Bytes) :
    parseFrame (frame payload ++ rest) = some (payload, rest) := by
  simp [parseFrame, frame, List.append_assoc, parseUint_encode]

theorem parseFrame_extend {c p r : Bytes} (h : parseFrame c = some (p, r)) (t : Bytes) :
    parseFrame (c ++ t) = some (p, r ++ t) := by
  unfold parseFrame at h
  cases hu : parseUint c with
  | none => simp [hu] at h
  | some nr =>
    obtain ⟨n, rest⟩ := nr
    rw [hu] at h
    dsimp only at h
    split_ifs at h with hlen
    cases h
    have hle : n ≤ rest.length := Nat.le_of_not_lt hlen
    have hlong : ¬ (rest ++ t).length < n := by
      rw [List.length_append]
      omega
    unfold parseFrame
    rw [parseUint_extend hu t]
    dsimp only
    rw [if_neg hlong, List.take_append_of_le_length hle, List.drop_append_of_le_length hle]

theorem parseFrame_zero (rest : Bytes) : parseFrame (0 :: rest) = some ([], rest) := by
  simp [parseFrame, parseUint]

theorem frame_ne (payload : Bytes) : frame payload ≠ [] := by
  intro h
  have := parseFrame_frame payload []
  rw [h] at this
  cases this

/-- What is particular to one type: its definitions, and the bytes of a value. -/
structure Wire (V : Type) where
  definitions : List Bytes
  value : V → Bytes
  parse : Bytes → Option V
  canon : V → V
  definition_ne : ∀ d ∈ definitions, d ≠ []
  parse_nil : parse [] = none
  canon_canon : ∀ v, canon (canon v) = canon v
  parse_value : ∀ v, parse (value v) = some (canon v)

def skip : List Bytes → Bytes → Option Bytes
  | [], c => some c
  | d :: ds, c =>
    match parseFrame c with
    | some (p, rest) => if p = d then skip ds rest else none
    | none => none

theorem skip_frames (ds : List Bytes) (rest : Bytes) :
    skip ds ((ds.map frame).flatten ++ rest) = some rest := by
  induction ds with
  | nil => rfl
  | cons d ds ih =>
    rw [List.map_cons, List.flatten_cons, List.append_assoc, skip, parseFrame_frame]
    exact (if_pos rfl).trans ih

theorem skip_extend {ds : List Bytes} {c r : Bytes} (h : skip ds c = some r) (t : Bytes) :
    skip ds (c ++ t) = some (r ++ t) := by
  induction ds generalizing c with
  | nil =>
    cases h
    rfl
  | cons d ds ih =>
    rw [skip] at h ⊢
    cases hp : parseFrame c with
    | none => simp [hp] at h
    | some pr =>
      obtain ⟨p, rest⟩ := pr
      rw [hp] at h
      rw [parseFrame_extend hp t]
      dsimp only at h ⊢
      split_ifs at h ⊢
      exact ih h

/-- A gap met among the definitions ends the reading, one met behind them is
left to the reader of the value. -/
theorem skip_gap {ds : List Bytes} (hne : ∀ d ∈ ds, d ≠ []) (i : ℕ) (rest : Bytes) :
    skip ds (((ds.map frame).take i).flatten ++ 0 :: rest) = none ∨
    skip ds (((ds.map frame).take i).flatten ++ 0 :: rest) = some (0 :: rest) := by
  induction ds generalizing i with
  | nil => exact Or.inr (by simp [skip])
  | cons d ds ih =>
    cases i with
    | zero =>
      refine Or.inl ?_
      have hd : ¬ [] = d := fun h => hne d List.mem_cons_self h.symm
      simp [skip, parseFrame_zero, hd]
    | succ i =>
      have hrec := ih (fun d hd => hne d (List.mem_cons_of_mem _ hd)) i
      rw [List.map_cons, List.take_succ_cons, List.flatten_cons, List.append_assoc, skip,
        parseFrame_frame]
      simpa using hrec

namespace Wire
variable {V : Type} (W : Wire V)

def decode (c : Bytes) : Option V :=
  match skip W.definitions c with
  | none => none
  | some rest =>
    match parseFrame rest with
    | none => none
    | some (p, _) => W.parse p

theorem decode_value (v : V) (rest : Bytes) :
    W.decode ((W.definitions.map frame).flatten ++ frame (W.value v) ++ rest) =
      some (W.canon v) := by
  rw [decode, List.append_assoc, skip_frames]
  dsimp only
  rw [parseFrame_frame]
  exact W.parse_value v

/-- Were a proper prefix to decode, then reading the whole would leave bytes
over. -/
theorem decode_prefix {v : V} {c t : Bytes}
    (h : c ++ t = (W.definitions.map frame).flatten ++ frame (W.value v)) (ht : t ≠ []) :
    W.decode c = none := by
  unfold decode
  cases hs : skip W.definitions c with
  | none => rfl
  | some r =>
    cases hp : parseFrame r with
    | none => simp [hp]
    | some pr =>
      obtain ⟨p, r'⟩ := pr
      have hwhole := skip_extend hs t
      rw [h, skip_frames] at hwhole
      have hframe := parseFrame_extend hp t
      rw [← Option.some.inj hwhole] at hframe
      have hown := parseFrame_frame (W.value v) []
      rw [List.append_nil, hframe] at hown
      have hnil : r' ++ t = [] := by simpa using congrArg (Option.map Prod.snd) hown
      exact absurd (List.append_eq_nil_iff.mp hnil).2 ht

theorem decode_zero (i : ℕ) (rest : Bytes) :
    W.decode (((W.definitions.map frame).take i).flatten ++ 0 :: rest) = none := by
  unfold decode
  rcases skip_gap W.definition_ne i rest with h | h
  · rw [h]
  · rw [h]
    dsimp only
    rw [parseFrame_zero]
    exact W.parse_nil

def gob : Gob V where
  descriptors := W.definitions.map frame
  message v := frame (W.value v)
  decode := W.decode
  canon := W.canon
  descriptor_ne := by
    intro d hd
    obtain ⟨p, -, rfl⟩ := List.mem_map.mp hd
    exact frame_ne p
  message_ne v := frame_ne _
  canon_canon := W.canon_canon
  decode_encode := W.decode_value
  decode_truncated := by
    rintro v c ⟨t, ht⟩ hne
    refine W.decode_prefix ht ?_
    rintro rfl
    exact hne (by simpa using ht)
  decode_gap := W.decode_zero

end Wire

end NexFi.Posix
