import NexFi.GoGob
import NexFi.GoMux
import NexFi.GoText
import NexFi.StoreHandlers
import NexFi.WebHandlers

/-!
# Basic authentication in front of the routes

`CheckAuth` takes what stands behind the first space of the header, decodes it,
and cuts it at the first colon; it does not look at the scheme. Every route but
the two file servers is wrapped, so without the credentials a request gets the
refusal or an answer of the multiplexer itself, and nothing is run for it.
-/

namespace NexFi.Web
open Posix GoText GoMux StoreDB StoreHandlers
open GoJson hiding decodeString

structure BasicAuth where
  username : Bytes
  password : Bytes

/-- A request as the server has read it; an absent header is empty. -/
structure HttpRequest extends Web.Request where
  path : Bytes
  authorization : Bytes

def checkAuth (a : BasicAuth) (authorization : Bytes) : Bool :=
  match splitN 32 2 authorization with
  | [_, payload] =>
    match decodeString payload with
    | none => false
    | some b =>
      match splitN 58 2 b with
      | [username, password] => username = a.username && password = a.password
      | _ => false
  | _ => false

structure Stores where
  config : Fs FileName
  topo : Fs FileName

structure Site where
  world : World
  disk : Prog.System FileName
  intSize : IntSize
  configGob : Gob ConfigData
  topoGob : Gob VisPositionData
  homePage : Option Bytes
  files : Web.Request → Bytes → Response

inductive Wrapped
  | home
  | topoVis
  | topoPosition
  | node
  | config
  | proxy
  deriving DecidableEq

inductive Target
  | fileServer
  | wrapped (h : Wrapped)
  deriving DecidableEq

def routes : List (Bytes × Target) :=
  [(ascii "/css/", .fileServer), (ascii "/js/", .fileServer), (ascii "/", .wrapped .home),
    (ascii "/topo/vis", .wrapped .topoVis), (ascii "/topo/position", .wrapped .topoPosition),
    (ascii "/node", .wrapped .node), (ascii "/config", .wrapped .config),
    (ascii "/proxy", .wrapped .proxy)]

def sendJson (j : Json) : Handler Unit := do
  setHeader "Content-Type" "application/json"
  write (.json j)

/-- A template that does not parse is nil, and its use is not recovered. -/
def homeHandler (site : Site) : Handler Unit := do
  let page ← deref site.homePage
  write (.bytes page)

def sendReply {V : Type} (marshal : V → Json) : Reply V → Handler Unit
  | .status s => sendJson (.obj [("status", .str s)])
  | .document v => sendJson (marshal v)

def handle (site : Site) (r : HttpRequest) (stores : Stores) : Wrapped → Handled × Stores
  | .home => (handled (homeHandler site), stores)
  | .topoVis => (handled (topoVisHandler site.world), stores)
  | .node => (handled (nodeDetailHandler site.world r.toRequest), stores)
  | .proxy => (handled (proxyHandler site.world r.toRequest), stores)
  | .config =>
    let (reply, fs) :=
      Prog.run site.disk (configHandler site.configGob ⟨r.method, r.body⟩) stores.config
    (handled (sendReply marshalConfigData reply), { stores with config := fs })
  | .topoPosition =>
    let (reply, fs) := Prog.run site.disk
      (topoPositionHandler site.intSize site.topoGob ⟨r.method, r.body⟩) stores.topo
    (handled (sendReply marshalVisPositionData reply), { stores with topo := fs })

def unauthorized : Handler Unit := do
  setHeader "WWW-Authenticate" "Basic realm=\"MY REALM\""
  writeHeader 401
  write (.text "401 Unauthorized\n")

def wrap (a : BasicAuth) (r : HttpRequest) (wrapped : Stores → Handled × Stores) (stores : Stores) :
    Handled × Stores :=
  if checkAuth a r.authorization then wrapped stores else (handled unauthorized, stores)

/-- The answers of the server and its multiplexer: to a request for `*`, and
where no handler is reached. -/
def ownReply (r : HttpRequest) : Option Response :=
  if r.path = ascii "*" then some ⟨if r.method = "OPTIONS" then 200 else 400, [], []⟩
  else
    match dispatch routes r.method r.path with
    | .redirect location =>
      some ⟨301, [("Location", String.ofList (location.map fun b => Char.ofNat b.toNat))], []⟩
    | .notFound =>
      some ⟨404, [("Content-Type", "text/plain; charset=utf-8")], [.text "404 page not found\n"]⟩
    | .handler _ => none

def serve (a : BasicAuth) (site : Site) (r : HttpRequest) (stores : Stores) : Handled × Stores :=
  match ownReply r with
  | some response => (⟨some response, [], none⟩, stores)
  | none =>
    match dispatch routes r.method r.path with
    | .handler (.wrapped h) => wrap a r (fun stores => handle site r stores h) stores
    | _ => (⟨some (site.files r.toRequest r.path), [], none⟩, stores)

def refusal : Response :=
  ⟨401, [("WWW-Authenticate", "Basic realm=\"MY REALM\"")], [.text "401 Unauthorized\n"]⟩

theorem handled_unauthorized : handled unauthorized = ⟨some refusal, [], none⟩ := rfl

theorem checkAuth_iff (a : BasicAuth) (h : Bytes) :
    checkAuth a h = true ↔ 58 ∉ a.username ∧ ∃ scheme payload, h = scheme ++ 32 :: payload ∧
      32 ∉ scheme ∧ decodeString payload = some (a.username ++ 58 :: a.password) := by
  constructor
  · intro hc
    unfold checkAuth at hc
    rcases splitN_two_cases 32 h with hs | ⟨scheme, payload, hs⟩
    · rw [hs] at hc
      cases hc
    · rw [hs] at hc
      cases hd : decodeString payload with
      | none =>
        simp only [hd] at hc
        cases hc
      | some b =>
        simp only [hd] at hc
        rcases splitN_two_cases 58 b with hb | ⟨username, password, hb⟩
        · rw [hb] at hc
          cases hc
        · rw [hb] at hc
          have hsame : username = a.username ∧ password = a.password := by simpa using hc
          obtain ⟨rfl, rfl⟩ := hsame
          obtain ⟨hh, hscheme⟩ := splitN_two.mp hs
          obtain ⟨rfl, huser⟩ := splitN_two.mp hb
          exact ⟨huser, scheme, payload, hh, hscheme, hd⟩
  · rintro ⟨huser, scheme, payload, hh, hscheme, hd⟩
    have hs := splitN_two.mpr ⟨hh, hscheme⟩
    have hb : splitN 58 2 (a.username ++ 58 :: a.password) = [a.username, a.password] :=
      splitN_two.mpr ⟨rfl, huser⟩
    simp [checkAuth, hs, hd, hb]

theorem checkAuth_basic (a : BasicAuth) (h : 58 ∉ a.username) :
    checkAuth a (ascii "Basic " ++ encodeToString (a.username ++ 58 :: a.password)) = true := by
  rw [checkAuth_iff]
  refine ⟨h, ascii "Basic", _, ?_, by decide, decodeString_encodeToString _⟩
  rfl

theorem serve_refused (a : BasicAuth) (site : Site) (r : HttpRequest) (stores : Stores)
    (hcss : ¬ ascii "/css/" <+: r.path) (hjs : ¬ ascii "/js/" <+: r.path)
    (h : checkAuth a r.authorization = false) :
    serve a site r stores = (⟨some ((ownReply r).getD refusal), [], none⟩, stores) := by
  have hown : ownReply r = none → ∃ w, dispatch routes r.method r.path = .handler (.wrapped w) := by
    intro hnone
    unfold ownReply at hnone
    split_ifs at hnone
    cases hd : dispatch routes r.method r.path with
    | redirect location => simp [hd] at hnone
    | notFound => simp [hd] at hnone
    | handler target =>
      cases target with
      | wrapped w => exact ⟨w, rfl⟩
      | fileServer =>
        obtain ⟨pattern, hmem, hmatch⟩ := dispatch_handler hd
        have hdir : pattern = ascii "/css/" ∨ pattern = ascii "/js/" := by simpa [routes] using hmem
        rcases hdir with rfl | rfl
        · exact absurd (prefix_of_pathMatch (by decide) hmatch) hcss
        · exact absurd (prefix_of_pathMatch (by decide) hmatch) hjs
  unfold serve
  cases hr : ownReply r with
  | some response => rfl
  | none =>
    obtain ⟨w, hw⟩ := hown hr
    simp only [hw, wrap, h, handled_unauthorized]
    rfl

/-- The credentials are accepted, nothing else is, and a request without them is
refused or answered by the multiplexer, whatever the site holds. -/
theorem auth_guards :
    (∀ a : BasicAuth, 58 ∉ a.username →
      checkAuth a (ascii "Basic " ++ encodeToString (a.username ++ 58 :: a.password)) = true) ∧
    (∀ (a : BasicAuth) (h : Bytes), checkAuth a h = true → ∃ scheme payload,
      h = scheme ++ 32 :: payload ∧ 32 ∉ scheme ∧
        decodeString payload = some (a.username ++ 58 :: a.password)) ∧
    ∀ (a : BasicAuth) (r : HttpRequest), ¬ ascii "/css/" <+: r.path → ¬ ascii "/js/" <+: r.path →
      checkAuth a r.authorization = false → ∀ (site : Site) (stores : Stores),
        serve a site r stores = (⟨some ((ownReply r).getD refusal), [], none⟩, stores) := by
  refine ⟨checkAuth_basic, fun a h hc => ?_, fun a r hcss hjs hc site stores => ?_⟩
  · exact ((checkAuth_iff a h).mp hc).2
  · exact serve_refused a site r stores hcss hjs hc

def colonUser : BasicAuth := ⟨ascii "a:b", ascii "c"⟩

def admin : BasicAuth := ⟨ascii "admin", ascii "admin"⟩

def bearer : Bytes := ascii "Bearer " ++ encodeToString (ascii "admin:admin")

def lower (b : UInt8) : UInt8 := if 65 ≤ b ∧ b ≤ 90 then b + 32 else b

def cssDirectory : HttpRequest := ⟨⟨"GET", .error "", none⟩, ascii "/css", []⟩

theorem wide_64 : 64 = 32 ∨ 64 = 64 := Or.inr rfl

def plainSite : Site where
  world := brokenWorld
  disk := perform
  intSize := ⟨64, wide_64⟩
  configGob := GoGob.configGob
  topoGob := GoGob.visPositionGob
  homePage := none
  files _ _ := ⟨404, [], []⟩

/-- A username with a colon is never accepted, the scheme may be another one, and
the directory of a file server is redirected without credentials. -/
theorem auth_not_exact :
    (¬ ∀ a : BasicAuth,
      checkAuth a (ascii "Basic " ++ encodeToString (a.username ++ 58 :: a.password)) = true) ∧
    (¬ ∀ (a : BasicAuth) (h : Bytes), checkAuth a h = true → ∃ scheme payload,
      h = scheme ++ 32 :: payload ∧ scheme.map lower = ascii "basic" ∧
        decodeString payload = some (a.username ++ 58 :: a.password)) ∧
    ¬ ∀ (a : BasicAuth) (r : HttpRequest), ¬ ascii "/css/" <+: r.path → ¬ ascii "/js/" <+: r.path →
      checkAuth a r.authorization = false → ∀ (site : Site) (stores : Stores),
        serve a site r stores = (⟨some refusal, [], none⟩, stores) := by
  refine ⟨fun h => ?_, fun h => ?_, fun h => ?_⟩
  · have hcolon := ((checkAuth_iff _ _).mp (h colonUser)).1
    exact hcolon (by decide)
  · obtain ⟨scheme, payload, heq, hscheme, -⟩ := h admin bearer (by decide +kernel)
    have hlength : scheme.length = 5 := by
      have hlower := congrArg List.length hscheme
      rwa [List.length_map] at hlower
    have htake : bearer.take 5 = scheme := by rw [heq, ← hlength, List.take_left]
    rw [← htake] at hscheme
    revert hscheme
    decide +kernel
  · have hcss : ¬ ascii "/css/" <+: cssDirectory.path := by decide
    have hjs : ¬ ascii "/js/" <+: cssDirectory.path := by decide
    have hserve := h admin cssDirectory hcss hjs (by decide) plainSite ⟨Fs.empty, Fs.empty⟩
    rw [serve_refused admin plainSite cssDirectory _ hcss hjs (by decide)] at hserve
    have hstatus := congrArg (fun served => served.1.response.map Response.status) hserve
    revert hstatus
    decide +kernel

end NexFi.Web
