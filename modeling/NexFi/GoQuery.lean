import NexFi.GoText

/-!
# Query strings as Go reads them

`url.ParseQuery` cuts at `&` and at the first `=` and unescapes both parts. A
setting that fails is left out, the rest is read on, and the error comes with
the result. Plain bytes come back as they were sent.
-/

namespace NexFi.GoQuery
open Posix GoText

inductive QueryError
  | escape (piece : Bytes)
  | semicolon
  deriving DecidableEq

def unhex (c : UInt8) : Option UInt8 :=
  if 48 ≤ c ∧ c ≤ 57 then some (c - 48)
  else if 97 ≤ c ∧ c ≤ 102 then some (c - 87)
  else if 65 ≤ c ∧ c ≤ 70 then some (c - 55)
  else none

def queryUnescape : Bytes → Except QueryError Bytes
  | [] => .ok []
  | c :: s =>
    if c = 37 then
      match s with
      | a :: b :: rest =>
        match unhex a, unhex b with
        | some x, some y => (queryUnescape rest).map ((x * 16 + y) :: ·)
        | _, _ => .error (.escape [37, a, b])
      | _ => .error (.escape (37 :: s))
    else (queryUnescape s).map ((if c = 43 then 32 else c) :: ·)

/-- The settings read so far, and the error to report. -/
structure Values where
  settings : List (Bytes × Bytes)
  error : Option QueryError

def Values.fail (v : Values) (e : QueryError) : Values := { v with error := v.error.or (some e) }

def addSetting (v : Values) (setting : Bytes) : Values :=
  if 59 ∈ setting then { v with error := some .semicolon }
  else if setting = [] then v
  else
    let (key, value) := (cut 61 setting).getD (setting, [])
    match queryUnescape key with
    | .error e => v.fail e
    | .ok key =>
      match queryUnescape value with
      | .error e => v.fail e
      | .ok value => { v with settings := v.settings ++ [(key, value)] }

def parseQuery (query : Bytes) : Values := (query.splitOn 38).foldl addSetting ⟨[], none⟩

def Values.get (v : Values) (key : Bytes) : List Bytes :=
  v.settings.filterMap fun s => if s.1 = key then some s.2 else none

/-- The bytes that stand for something else. -/
def special : Bytes := [37, 38, 43, 59, 61]

def Plain (s : Bytes) : Prop := ∀ c ∈ s, c ∉ special

instance (s : Bytes) : Decidable (Plain s) := inferInstanceAs (Decidable (∀ c ∈ s, c ∉ special))

theorem Plain.notMem {s : Bytes} (h : Plain s) {c : UInt8} (hc : c ∈ special) : c ∉ s :=
  fun hs => h c hs hc

theorem queryUnescape_plain {s : Bytes} (h : Plain s) : queryUnescape s = .ok s := by
  induction s with
  | nil => rfl
  | cons c s ih =>
    have hc : c ∉ special := h c List.mem_cons_self
    have hpercent : c ≠ 37 := fun heq => hc (heq ▸ by decide)
    have hplus : c ≠ 43 := fun heq => hc (heq ▸ by decide)
    unfold queryUnescape
    rw [if_neg hpercent, if_neg hplus, ih fun b hb => h b (List.mem_cons_of_mem c hb)]
    rfl

theorem cut_plain {key value : Bytes} (h : 61 ∉ key) :
    cut 61 (key ++ 61 :: value) = some (key, value) :=
  cut_eq_some_iff.mpr ⟨rfl, h⟩

/-- A query with one setting of plain bytes. -/
theorem parseQuery_plain {key value : Bytes} (hkey : Plain key) (hvalue : Plain value) :
    parseQuery (key ++ 61 :: value) = ⟨[(key, value)], none⟩ := by
  have hone : (key ++ 61 :: value).splitOn 38 = [key ++ 61 :: value] := by
    refine List.splitOnP_eq_singleton fun c hc => beq_false_of_ne ?_
    intro heq
    subst heq
    simp [hkey.notMem (c := 38) (by decide), hvalue.notMem (c := 38) (by decide)] at hc
  have hsemi : 59 ∉ key ++ 61 :: value := by
    simp [hkey.notMem (c := 59) (by decide), hvalue.notMem (c := 59) (by decide)]
  have hsome : key ++ 61 :: value ≠ [] := by simp
  rw [parseQuery, hone, List.foldl_cons, List.foldl_nil, addSetting, if_neg hsemi, if_neg hsome,
    cut_plain (hkey.notMem (by decide))]
  simp only [Option.getD_some, queryUnescape_plain hkey, queryUnescape_plain hvalue,
    List.nil_append]

end NexFi.GoQuery
