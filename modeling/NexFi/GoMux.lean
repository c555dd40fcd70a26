import Mathlib.Data.List.Basic
import Mathlib.Tactic.SplitIfs
import NexFi.PosixContent

/-!
# The request multiplexer of Go

Patterns that end in a slash match every path below them, others only
themselves, and the longest match wins. The multiplexer answers some requests
itself: it redirects a path that is not clean and the path of a directory
without its slash, and nothing may match the path of a `CONNECT`.
-/

namespace NexFi.GoMux
open Posix

variable {H : Type}

def slash : UInt8 := 47

def pushComponent (stack : List Bytes) (component : Bytes) : List Bytes :=
  if component = [] ∨ component = [46] then stack
  else if component = [46, 46] then stack.tail
  else component :: stack

/-- `path.Clean` of a path that starts with a slash. -/
def clean (path : Bytes) : Bytes :=
  slash :: List.intercalate [slash] (((path.splitOn slash).foldl pushComponent []).reverse)

def cleanPath (path : Bytes) : Bytes :=
  if path = [] then [slash]
  else
    let rooted := if path.head? = some slash then path else slash :: path
    if rooted.getLast? = some slash ∧ clean rooted ≠ [slash] then clean rooted ++ [slash]
    else clean rooted

def pathMatch (pattern path : Bytes) : Bool :=
  if pattern.getLast? = some slash then pattern.isPrefixOf path else pattern = path

def longer (path : Bytes) (best : Option (Bytes × H)) (entry : Bytes × H) : Option (Bytes × H) :=
  if pathMatch entry.1 path ∧ best.all fun b => b.1.length < entry.1.length then some entry else best

/-- The first of the longest patterns that match. -/
def matchLongest (entries : List (Bytes × H)) (path : Bytes) : Option (Bytes × H) :=
  entries.foldl (longer path) none

def registered (entries : List (Bytes × H)) (path : Bytes) : Bool :=
  entries.any fun entry => entry.1 = path

def redirectToPathSlash (entries : List (Bytes × H)) (path : Bytes) : Bool :=
  !registered entries path && path ≠ [] && path.getLast? ≠ some slash &&
    registered entries (path ++ [slash])

inductive Dispatch (H : Type)
  | redirect (location : Bytes)
  | notFound
  | handler (h : H)
  deriving DecidableEq

/-- The path of a `CONNECT` is taken as it is. -/
def requestPath (method : String) (path : Bytes) : Bytes :=
  if method = "CONNECT" then path else cleanPath path

def dispatch (entries : List (Bytes × H)) (method : String) (path : Bytes) : Dispatch H :=
  if redirectToPathSlash entries (requestPath method path) then
    .redirect (requestPath method path ++ [slash])
  else if requestPath method path ≠ path then .redirect (requestPath method path)
  else (matchLongest entries path).elim .notFound fun entry => .handler entry.2

theorem prefix_of_pathMatch {pattern path : Bytes} (hdir : pattern.getLast? = some slash)
    (h : pathMatch pattern path = true) : pattern <+: path := by
  rw [pathMatch, if_pos hdir] at h
  exact List.isPrefixOf_iff_prefix.mp h

theorem matchLongest_matches {entries : List (Bytes × H)} {path : Bytes} {entry : Bytes × H}
    (h : matchLongest entries path = some entry) :
    entry ∈ entries ∧ pathMatch entry.1 path = true := by
  -- whatever the scan has kept so far is an entry that matches
  have hscan : ∀ (rest : List (Bytes × H)) (best : Option (Bytes × H)), rest ⊆ entries →
      (∀ b ∈ best, b ∈ entries ∧ pathMatch b.1 path = true) →
      ∀ b ∈ rest.foldl (longer path) best, b ∈ entries ∧ pathMatch b.1 path = true := by
    intro rest
    induction rest with
    | nil => exact fun best _ hbest => hbest
    | cons e rest ih =>
      intro best hsub hbest
      rw [List.foldl_cons]
      apply ih _ fun x hx => hsub (List.mem_cons_of_mem e hx)
      intro b hb
      unfold longer at hb
      split_ifs at hb with hmatch
      · cases hb
        exact ⟨hsub List.mem_cons_self, hmatch.1⟩
      · exact hbest b hb
  exact hscan entries none (List.Subset.refl _) (fun b hb => by cases hb) entry h

/-- A request reaches only a handler whose pattern matches its path. -/
theorem dispatch_handler {entries : List (Bytes × H)} {method : String} {path : Bytes} {h : H}
    (hd : dispatch entries method path = .handler h) :
    ∃ pattern, (pattern, h) ∈ entries ∧ pathMatch pattern path = true := by
  unfold dispatch at hd
  split_ifs at hd
  cases hmatch : matchLongest entries path with
  | none =>
    rw [hmatch] at hd
    cases hd
  | some entry =>
    rw [hmatch] at hd
    cases hd
    exact ⟨entry.1, matchLongest_matches hmatch⟩

end NexFi.GoMux
