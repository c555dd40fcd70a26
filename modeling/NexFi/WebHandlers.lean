import NexFi.GoJson
import NexFi.PosixContent

/-!
# The JSON endpoints and the calls behind them

A handler writes to its response, makes calls that may fail, and dereferences
what they return; a deferred `recover` logs a panic and lets the handler return.
A response without a status is sent with status 200. The handlers drop the
errors of their calls, so the reply is honest only when every call succeeds.
-/

namespace NexFi.Web
open Posix GoJson

inductive Content
  | bytes (b : Bytes)
  | json (j : Json)
  | text (s : String)

inductive CallName
  | command
  | parseQuery
  | marshal
  | decode
  | newRequest
  | send (url payload : String)
  | readAll
  deriving DecidableEq

structure Call where
  name : CallName
  failed : Bool
  output : Option Content

inductive Panic
  | nilDereference
  deriving DecidableEq

/-- The response so far, the calls, and the panic that `recover` has logged. -/
structure Writer where
  status : Option ℕ
  header : List (String × String)
  body : List Content
  calls : List Call
  recovered : Option Panic

abbrev Handler := ExceptT Panic (StateM Writer)

def Writer.new : Writer := ⟨none, [], [], [], none⟩

def setHeader (key value : String) : Handler Unit :=
  modify fun w => { w with header := w.header ++ [(key, value)] }

def writeHeader (code : ℕ) : Handler Unit :=
  modify fun w => { w with status := w.status.or (some code) }

def write (content : Content) : Handler Unit := do
  writeHeader 200
  modify fun w => { w with body := w.body ++ [content] }

def httpError (message : String) (code : ℕ) : Handler Unit := do
  setHeader "Content-Type" "text/plain; charset=utf-8"
  writeHeader code
  write (.text (message ++ "\n"))

def call (c : Call) : Handler Unit := modify fun w => { w with calls := w.calls ++ [c] }

def deref {α : Type} : Option α → Handler α
  | some a => pure a
  | none => throw .nilDereference

theorem deref_some_bind {α β : Type} (a : α) (f : α → Handler β) : (deref (some a) >>= f) = f a := rfl

/-- The deferred function of the handlers. -/
def deferRecover (handler : Handler Unit) : Handler Unit :=
  tryCatch handler fun panic => modify fun w => { w with recovered := some panic }

structure Response where
  status : ℕ
  header : List (String × String)
  body : List Content

structure Handled where
  response : Option Response
  calls : List Call
  recovered : Option Panic

def handled (handler : Handler Unit) : Handled :=
  match handler.run Writer.new with
  | (.ok _, w) => ⟨some ⟨w.status.getD 200, w.header, w.body⟩, w.calls, w.recovered⟩
  | (.error _, w) => ⟨none, w.calls, w.recovered⟩

structure Request where
  method : String
  -- what `url.ParseQuery` makes of the raw query
  query : Except String (String → List String)
  body : Body

structure NexFiData where
  adhoc0 : String
  brlan : String
  eth1 : String
  ipaddress : String
  no : String
  deriving DecidableEq

def marshalNexFiData (d : NexFiData) : Json :=
  .obj [("adhoc0", .str d.adhoc0), ("br-lan", .str d.brlan), ("eth1", .str d.eth1),
    ("ipaddress", .str d.ipaddress), ("no", .str d.no)]

structure ProxyReqData where
  url : String
  payload : String
  deriving DecidableEq

def decodeProxyReqData : ProxyReqData → Json → Decoded ProxyReqData :=
  decodeStruct fun key =>
    if foldEq key "url" then
      some fun p j => let d := decodeString p.url j; ⟨{ p with url := d.value }, d.failed⟩
    else if foldEq key "payload" then
      some fun p j => let d := decodeString p.payload j; ⟨{ p with payload := d.value }, d.failed⟩
    else none

structure Command where
  printed : Bytes
  failed : Bool

structure Fetch where
  received : Bytes
  brokenOff : Bool

/-- What the handlers meet outside. A result is missing exactly when its call
returns an error. -/
structure World where
  vis : Command
  newRequest : String → Bool
  send : String → String → Option Fetch
  ipInfo : List NexFiData
  toUpper : String → String

section Handlers
variable (world : World)

def system : Handler Bytes := do
  call ⟨.command, world.vis.failed, some (.bytes world.vis.printed)⟩
  return world.vis.printed

def topoVisHandler : Handler Unit := deferRecover do
  let out ← system world
  setHeader "Content-Type" "application/json"
  write (.bytes out)

def parseQuery (r : Request) : Handler (Except String (String → List String)) := do
  call ⟨.parseQuery, !r.query.isOk, none⟩
  return r.query

def marshal (d : NexFiData) : Handler (Except String Json) := do
  call ⟨.marshal, false, some (.json (marshalNexFiData d))⟩
  return .ok (marshalNexFiData d)

def findNode : Except String (String → List String) → NexFiData
  | .error _ => ⟨"", "", "", "", ""⟩
  | .ok queryForm =>
    match queryForm "macAddr" with
    | [] => ⟨"", "", "", "", ""⟩
    | macAddr :: _ =>
      (world.ipInfo.find? fun ip => world.toUpper macAddr = ip.adhoc0).getD ⟨"", "", "", "", ""⟩

def nodeDetailHandler (r : Request) : Handler Unit := deferRecover do
  if r.method = "GET" then
    let resp := findNode world (← parseQuery r)
    match ← marshal resp with
    | .error _ => httpError "Marshal JSON failed" 500
    | .ok buf =>
      setHeader "Content-Type" "application/json"
      write (.json buf)

/-- `newRequest` and `send` give nil with every error, and nobody asks for it. -/
def postByProxy (urlAddr payload : String) : Handler Bytes := do
  let req := if world.newRequest urlAddr then some urlAddr else none
  call ⟨.newRequest, req.isNone, none⟩
  let url ← deref req
  let res := world.send url payload
  call ⟨.send url payload, res.isNone, none⟩
  let fetch ← deref res
  call ⟨.readAll, fetch.brokenOff, some (.bytes fetch.received)⟩
  return fetch.received

def proxyHandler (r : Request) : Handler Unit := deferRecover do
  let d := decodeBody ⟨"", ""⟩ decodeProxyReqData r.body
  call ⟨.decode, d.failed, none⟩
  if d.failed ∨ d.value.url = "" then return
  let result ← postByProxy world d.value.url d.value.payload
  setHeader "Content-Type" "application/json"
  write (.bytes result)

end Handlers

/-- Status 200 comes with the complete output of a call that succeeded and no
failed call comes with status 200. -/
structure Honest (h : Handled) : Prop where
  complete : ∀ r ∈ h.response, r.status = 200 →
    ∃ c ∈ h.calls, c.failed = false ∧ ∃ content, c.output = some content ∧ r.body = [content]
  failures : ∀ c ∈ h.calls, c.failed = true → ∀ r ∈ h.response, r.status ≠ 200
  noNil : h.recovered = none

section Outcomes
variable (world : World)

theorem handled_topoVis :
    handled (topoVisHandler world) =
      ⟨some ⟨200, [("Content-Type", "application/json")], [.bytes world.vis.printed]⟩,
        [⟨.command, world.vis.failed, some (.bytes world.vis.printed)⟩], none⟩ := rfl

theorem handled_nodeDetail (query : Except String (String → List String)) (body : Body) :
    handled (nodeDetailHandler world ⟨"GET", query, body⟩) =
      ⟨some ⟨200, [("Content-Type", "application/json")],
          [.json (marshalNexFiData (findNode world query))]⟩,
        [⟨.parseQuery, !query.isOk, none⟩,
          ⟨.marshal, false, some (.json (marshalNexFiData (findNode world query)))⟩], none⟩ := rfl

def decoded (r : Request) : Decoded ProxyReqData := decodeBody ⟨"", ""⟩ decodeProxyReqData r.body

def Posts (r : Request) : Prop := (decoded r).failed = false ∧ (decoded r).value.url ≠ ""

section Proxy
variable {world} {r : Request}

theorem handled_proxy_refused (h : ¬ Posts r) :
    handled (proxyHandler world r) =
      ⟨some ⟨200, [], []⟩, [⟨.decode, (decoded r).failed, none⟩], none⟩ := by
  have hguard : (decoded r).failed = true ∨ (decoded r).value.url = "" := by
    rw [Posts, not_and_or, not_not, Bool.not_eq_false] at h
    exact h
  unfold decoded at hguard ⊢
  simp only [proxyHandler, hguard, if_true]
  rfl

theorem handled_proxy_posts (h : Posts r) :
    handled (proxyHandler world r) = handled (deferRecover do
      call ⟨.decode, false, none⟩
      let result ← postByProxy world (decoded r).value.url (decoded r).value.payload
      setHeader "Content-Type" "application/json"
      write (.bytes result)) := by
  have hguard : ¬ ((decoded r).failed = true ∨ (decoded r).value.url = "") := by
    rw [not_or, Bool.not_eq_true]
    exact h
  have hfailed := h.1
  unfold decoded at hguard hfailed ⊢
  simp only [proxyHandler, hguard, if_false]
  rw [hfailed]

theorem handled_proxy_badUrl (h : Posts r) (hnew : world.newRequest (decoded r).value.url = false) :
    handled (proxyHandler world r) =
      ⟨some ⟨200, [], []⟩, [⟨.decode, false, none⟩, ⟨.newRequest, true, none⟩],
        some .nilDereference⟩ := by
  rw [handled_proxy_posts h]
  simp only [postByProxy, hnew]
  rfl

theorem handled_proxy_unsent (h : Posts r) (hnew : world.newRequest (decoded r).value.url = true)
    (hsend : world.send (decoded r).value.url (decoded r).value.payload = none) :
    handled (proxyHandler world r) =
      ⟨some ⟨200, [], []⟩, [⟨.decode, false, none⟩, ⟨.newRequest, false, none⟩,
        ⟨.send (decoded r).value.url (decoded r).value.payload, true, none⟩],
        some .nilDereference⟩ := by
  rw [handled_proxy_posts h]
  simp only [postByProxy, hnew, if_true, deref_some_bind, hsend]
  rfl

theorem handled_proxy_sent (h : Posts r) (hnew : world.newRequest (decoded r).value.url = true)
    {fetch : Fetch}
    (hsend : world.send (decoded r).value.url (decoded r).value.payload = some fetch) :
    handled (proxyHandler world r) =
      ⟨some ⟨200, [("Content-Type", "application/json")], [.bytes fetch.received]⟩,
        [⟨.decode, false, none⟩, ⟨.newRequest, false, none⟩,
          ⟨.send (decoded r).value.url (decoded r).value.payload, false, none⟩,
          ⟨.readAll, fetch.brokenOff, some (.bytes fetch.received)⟩], none⟩ := by
  rw [handled_proxy_posts h]
  simp only [postByProxy, hnew, if_true, deref_some_bind, hsend]
  rfl

def Fetches (world : World) (r : Request) : Prop :=
  Posts r ∧ world.newRequest (decoded r).value.url = true ∧
    ∃ fetch, world.send (decoded r).value.url (decoded r).value.payload = some fetch ∧
      fetch.brokenOff = false

end Proxy

theorem honest_iff (header : List (String × String)) (body : List Content) (calls : List Call)
    (recovered : Option Panic) :
    Honest ⟨some ⟨200, header, body⟩, calls, recovered⟩ ↔
      (∃ c ∈ calls, c.failed = false ∧ ∃ content, c.output = some content ∧ body = [content]) ∧
      (∀ c ∈ calls, c.failed = false) ∧ recovered = none := by
  constructor
  · intro h
    refine ⟨h.complete _ rfl rfl, fun c hc => ?_, h.noNil⟩
    by_contra hfailed
    exact h.failures c hc (by simpa using hfailed) _ rfl rfl
  · rintro ⟨hcomplete, hcalls, hnil⟩
    refine ⟨fun r hr _ => ?_, fun c hc hfailed => ?_, hnil⟩
    · cases hr
      exact hcomplete
    · rw [hcalls c hc] at hfailed
      cases hfailed

theorem honest_topoVis : Honest (handled (topoVisHandler world)) ↔ world.vis.failed = false := by
  rw [handled_topoVis, honest_iff]
  simp

theorem honest_nodeDetail (query : Except String (String → List String)) (body : Body) :
    Honest (handled (nodeDetailHandler world ⟨"GET", query, body⟩)) ↔ query.isOk = true := by
  rw [handled_nodeDetail, honest_iff]
  simp

theorem honest_proxy (r : Request) : Honest (handled (proxyHandler world r)) ↔ Fetches world r := by
  by_cases hposts : Posts r
  · cases hnew : world.newRequest (decoded r).value.url with
    | false =>
      rw [handled_proxy_badUrl hposts hnew, honest_iff]
      simp [Fetches, hnew]
    | true =>
      cases hsend : world.send (decoded r).value.url (decoded r).value.payload with
      | none =>
        rw [handled_proxy_unsent hposts hnew hsend, honest_iff]
        simp [Fetches, hsend]
      | some fetch =>
        rw [handled_proxy_sent hposts hnew hsend, honest_iff]
        simp [Fetches, hposts, hnew, hsend]
  · rw [handled_proxy_refused hposts, honest_iff]
    simp [Fetches, hposts]

end Outcomes

/-- The three endpoints are honest exactly when their calls succeed. -/
theorem endpoints_honest_iff (world : World) :
    (Honest (handled (topoVisHandler world)) ↔ world.vis.failed = false) ∧
    (∀ query body, Honest (handled (nodeDetailHandler world ⟨"GET", query, body⟩)) ↔
      query.isOk = true) ∧
    ∀ r, Honest (handled (proxyHandler world r)) ↔ Fetches world r :=
  ⟨honest_topoVis world, honest_nodeDetail world, honest_proxy world⟩

def brokenWorld : World where
  vis := ⟨[123], true⟩
  newRequest _ := true
  send _ _ := none
  ipInfo := []
  toUpper s := s

/-- What the command printed before its error is sent with status 200. -/
theorem endpoints_not_honest :
    ¬ ∀ (world : World), Honest (handled (topoVisHandler world)) ∧
      (∀ query body, Honest (handled (nodeDetailHandler world ⟨"GET", query, body⟩))) ∧
      ∀ r, Honest (handled (proxyHandler world r)) := by
  intro h
  have hvis := (honest_topoVis brokenWorld).mp (h brokenWorld).1
  cases hvis

end NexFi.Web
