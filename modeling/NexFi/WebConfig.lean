import NexFi.WebAuth

/-!
# The configuration

`init` takes every setting either from the flags or from the config file. The
flags have defaults for what is empty, the file has none: what it leaves out
stays empty, and a file that cannot be read leaves everything empty and the
logger nil. A file that is no JSON names no log file either, and the process
exits because it cannot open one.
-/

namespace NexFi.Web
open Posix GoText
open GoJson hiding decodeString

structure GlobalConfig where
  logFile : String
  listenAddress : String
  configFile : String
  logToStdout : Bool
  username : String
  password : String
  visCommand : String
  ipInfoFile : String
  -- whether the pointer to the mutex is set
  lock : Bool
  deriving DecidableEq

structure Flags where
  logFile : String
  listenAddress : String
  configFile : String
  logToStdout : Bool
  visCommand : String
  username : String
  password : String
  ipInfoFile : String

/-- A path as `Stat` and `ReadFile` find it; the content is `none` when it is not JSON. -/
inductive FileState
  | absent
  | unreadable
  | content (json : Body)

/-- What the process finds: the files, and the paths that can be opened for the log. -/
structure Host where
  file : String → FileState
  openFile : String → Bool
  file_empty : file "" = .absent
  openFile_empty : openFile "" = false

def decodeBool (old : Bool) : Json → Decoded Bool
  | .null => ⟨old, false⟩
  | .bool b => ⟨b, false⟩
  | _ => ⟨old, true⟩

/-- A mutex has no fields that JSON could set. -/
def decodeLock : Json → Decoded Bool
  | .null => ⟨false, false⟩
  | .obj _ => ⟨true, false⟩
  | _ => ⟨true, true⟩

def decodeGlobalConfig : GlobalConfig → Json → Decoded GlobalConfig :=
  decodeStruct fun key =>
    if foldEq key "log_file" then
      some fun c j =>
        let d := GoJson.decodeString c.logFile j
        ⟨{ c with logFile := d.value }, d.failed⟩
    else if foldEq key "listen_address" then
      some fun c j =>
        let d := GoJson.decodeString c.listenAddress j
        ⟨{ c with listenAddress := d.value }, d.failed⟩
    else if foldEq key "config" then
      some fun c j =>
        let d := GoJson.decodeString c.configFile j
        ⟨{ c with configFile := d.value }, d.failed⟩
    else if foldEq key "log_to_stdout" then
      some fun c j => let d := decodeBool c.logToStdout j; ⟨{ c with logToStdout := d.value }, d.failed⟩
    else if foldEq key "username" then
      some fun c j =>
        let d := GoJson.decodeString c.username j
        ⟨{ c with username := d.value }, d.failed⟩
    else if foldEq key "password" then
      some fun c j =>
        let d := GoJson.decodeString c.password j
        ⟨{ c with password := d.value }, d.failed⟩
    else if foldEq key "vis_command" then
      some fun c j =>
        let d := GoJson.decodeString c.visCommand j
        ⟨{ c with visCommand := d.value }, d.failed⟩
    else if foldEq key "ip_info_file" then
      some fun c j =>
        let d := GoJson.decodeString c.ipInfoFile j
        ⟨{ c with ipInfoFile := d.value }, d.failed⟩
    else if foldEq key "Lock" then
      some fun c j => let d := decodeLock j; ⟨{ c with lock := d.value }, d.failed⟩
    else none

structure IpInfo where
  nexFi : Option (List NexFiData)
  deriving DecidableEq

def noNode : NexFiData := ⟨"", "", "", "", ""⟩

def decodeNexFiData : NexFiData → Json → Decoded NexFiData :=
  decodeStruct fun key =>
    if foldEq key "adhoc0" then
      some fun n j => let d := GoJson.decodeString n.adhoc0 j; ⟨{ n with adhoc0 := d.value }, d.failed⟩
    else if foldEq key "br-lan" then
      some fun n j => let d := GoJson.decodeString n.brlan j; ⟨{ n with brlan := d.value }, d.failed⟩
    else if foldEq key "eth1" then
      some fun n j => let d := GoJson.decodeString n.eth1 j; ⟨{ n with eth1 := d.value }, d.failed⟩
    else if foldEq key "ipaddress" then
      some fun n j =>
        let d := GoJson.decodeString n.ipaddress j
        ⟨{ n with ipaddress := d.value }, d.failed⟩
    else if foldEq key "no" then
      some fun n j => let d := GoJson.decodeString n.no j; ⟨{ n with no := d.value }, d.failed⟩
    else none

def decodeIpInfo : IpInfo → Json → Decoded IpInfo :=
  decodeStruct fun key =>
    if foldEq key "nexfi" then
      some fun v j => let d := decodeSlice noNode decodeNexFiData v.nexFi j; ⟨⟨d.value⟩, d.failed⟩
    else none

/-- A table that does not decode completely is dropped. -/
def loadIpInfo : FileState → IpInfo
  | .absent => ⟨none⟩
  | .unreadable => ⟨none⟩
  | .content json =>
    let d := decodeBody ⟨none⟩ decodeIpInfo json
    if d.failed then ⟨none⟩ else d.value

def Flags.withDefaults (flags : Flags) : Flags :=
  { flags with
    logFile := if flags.logFile = "" then "./server.log" else flags.logFile
    ipInfoFile := if flags.ipInfoFile = "" then "./ip_info.json" else flags.ipInfoFile
    listenAddress := if flags.listenAddress = "" then "0.0.0.0:8888" else flags.listenAddress
    username := if flags.username = "" then "admin" else flags.username
    password := if flags.password = "" then "admin" else flags.password
    visCommand := if flags.visCommand = "" then "batadv-vis -f jsondoc" else flags.visCommand }

/-- The global before it is loaded, with a new mutex. -/
def GlobalConfig.fresh : GlobalConfig := ⟨"", "", "", false, "", "", "", "", true⟩

def GlobalConfig.ofFlags (flags : Flags) : GlobalConfig :=
  { GlobalConfig.fresh with
    logFile := flags.logFile
    ipInfoFile := flags.ipInfoFile
    listenAddress := flags.listenAddress
    logToStdout := flags.logToStdout
    username := flags.username
    password := flags.password
    visCommand := flags.visCommand }

inductive Logger
  | stdout
  | file (name : String)
  deriving DecidableEq

/-- The globals that `init` sets. -/
structure Globals where
  config : GlobalConfig
  logger : Option Logger
  ipInfoData : IpInfo

/-- Behind the config: the logger and the table. `none` when the process exits. -/
def initLogger (host : Host) (config : GlobalConfig) : Option Globals :=
  if config.logToStdout then
    some ⟨config, some .stdout, loadIpInfo (host.file config.ipInfoFile)⟩
  else if host.openFile config.logFile then
    some ⟨config, some (.file config.logFile), loadIpInfo (host.file config.ipInfoFile)⟩
  else none

def init (host : Host) (flags : Flags) : Option Globals :=
  match host.file flags.configFile with
  | .absent => initLogger host (.ofFlags flags.withDefaults)
  -- the read error returns from `init`
  | .unreadable => some ⟨.fresh, none, ⟨none⟩⟩
  | .content json => initLogger host (decodeBody .fresh decodeGlobalConfig json).value

inductive Setting
  | logFile
  | listenAddress
  | username
  | password
  | visCommand
  | ipInfoFile
  deriving DecidableEq

namespace Setting

def inConfig (config : GlobalConfig) : Setting → String
  | .logFile => config.logFile
  | .listenAddress => config.listenAddress
  | .username => config.username
  | .password => config.password
  | .visCommand => config.visCommand
  | .ipInfoFile => config.ipInfoFile

def inFlags (flags : Flags) : Setting → String
  | .logFile => flags.logFile
  | .listenAddress => flags.listenAddress
  | .username => flags.username
  | .password => flags.password
  | .visCommand => flags.visCommand
  | .ipInfoFile => flags.ipInfoFile

def builtIn : Setting → String
  | .logFile => "./server.log"
  | .listenAddress => "0.0.0.0:8888"
  | .username => "admin"
  | .password => "admin"
  | .visCommand => "batadv-vis -f jsondoc"
  | .ipInfoFile => "./ip_info.json"

/-- The first of the three sources that is not empty. -/
def resolve (given : GlobalConfig) (flags : Flags) (s : Setting) : String :=
  if s.inConfig given ≠ "" then s.inConfig given
  else if s.inFlags flags ≠ "" then s.inFlags flags
  else s.builtIn

theorem inFlags_withDefaults (flags : Flags) (s : Setting) :
    s.inFlags flags.withDefaults = if s.inFlags flags = "" then s.builtIn else s.inFlags flags := by
  cases s <;> rfl

theorem inConfig_ofFlags (flags : Flags) (s : Setting) :
    s.inConfig (.ofFlags flags) = s.inFlags flags := by
  cases s <;> rfl

theorem inConfig_fresh (s : Setting) : s.inConfig .fresh = "" := by
  cases s <;> rfl

theorem builtIn_ne (s : Setting) : s.builtIn ≠ "" := by
  cases s <;> decide

theorem resolve_fresh (flags : Flags) (s : Setting) :
    s.resolve .fresh flags = s.inFlags flags.withDefaults := by
  rw [resolve, inConfig_fresh, inFlags_withDefaults]
  by_cases hflag : s.inFlags flags = "" <;> simp [hflag]

theorem withDefaults_ne (flags : Flags) (s : Setting) : s.inFlags flags.withDefaults ≠ "" := by
  rw [inFlags_withDefaults]
  split_ifs with hflag
  · exact s.builtIn_ne
  · exact hflag

end Setting

/-- What the config file gives. -/
def given (host : Host) (flags : Flags) : GlobalConfig :=
  match host.file flags.configFile with
  | .content json => (decodeBody .fresh decodeGlobalConfig json).value
  | _ => .fresh

def GlobalConfig.basicAuth (config : GlobalConfig) : BasicAuth :=
  ⟨utf8 config.username, utf8 config.password⟩

structure Usable (host : Host) (flags : Flags) (g : Globals) : Prop where
  logger : g.logger.isSome
  settings : ∀ s : Setting, s.inConfig g.config ≠ "" ∧
    s.inConfig g.config = s.resolve (given host flags) flags
  -- an empty username with an empty password
  login : ∀ scheme payload, 32 ∉ scheme → decodeString payload = some [58] →
    checkAuth g.config.basicAuth (scheme ++ 32 :: payload) = false

/-- Without a config file the flags are enough. A file that can be read has to
give all settings, unless the process exits over the log file. -/
def Suffices (host : Host) (flags : Flags) : Prop :=
  match host.file flags.configFile with
  | .absent => True
  | .unreadable => False
  | .content _ =>
    ((given host flags).logToStdout = false ∧ host.openFile (given host flags).logFile = false) ∨
      ∀ s : Setting, s.inConfig (given host flags) ≠ ""

theorem initLogger_some {host : Host} {config : GlobalConfig} {g : Globals}
    (h : initLogger host config = some g) : g.config = config ∧ g.logger.isSome := by
  unfold initLogger at h
  split_ifs at h
  · cases h
    exact ⟨rfl, rfl⟩
  · cases h
    exact ⟨rfl, rfl⟩

theorem initLogger_none {host : Host} {config : GlobalConfig} :
    initLogger host config = none ↔
      config.logToStdout = false ∧ host.openFile config.logFile = false := by
  unfold initLogger
  split_ifs with hstdout hopen
  · simp [hstdout]
  · simp [hopen]
  · simp [hstdout, hopen]

/-- A username that is not empty keeps the empty credentials out. -/
theorem empty_login_refused {config : GlobalConfig} (h : config.username ≠ "") {scheme payload : Bytes}
    (hscheme : 32 ∉ scheme) (hpayload : decodeString payload = some [58]) :
    checkAuth config.basicAuth (scheme ++ 32 :: payload) = false := by
  rw [← Bool.not_eq_true, checkAuth_iff]
  rintro ⟨-, scheme', payload', heq, hscheme', hdecoded⟩
  have hcut : [scheme, payload] = [scheme', payload'] :=
    (splitN_two.mpr ⟨rfl, hscheme⟩).symm.trans (splitN_two.mpr ⟨heq, hscheme'⟩)
  obtain ⟨-, rfl⟩ : scheme = scheme' ∧ payload = payload' := by simpa using hcut
  rw [hpayload, Option.some.injEq] at hdecoded
  obtain ⟨b, u, hu⟩ := List.exists_cons_of_ne_nil (utf8_ne_nil h)
  have hlength := congrArg List.length hdecoded
  simp [GlobalConfig.basicAuth, hu] at hlength

theorem usable_of_settings {host : Host} {flags : Flags} {g : Globals} (hlogger : g.logger.isSome)
    (h : ∀ s : Setting, s.inConfig g.config ≠ "" ∧
      s.inConfig g.config = s.resolve (given host flags) flags) : Usable host flags g :=
  ⟨hlogger, h, fun _ _ => empty_login_refused (h .username).1⟩

theorem usable_absent {host : Host} {flags : Flags} (h : host.file flags.configFile = .absent)
    {g : Globals} (hg : init host flags = some g) : Usable host flags g := by
  rw [init, h] at hg
  obtain ⟨hconfig, hlogger⟩ := initLogger_some hg
  have hgiven : given host flags = .fresh := by rw [given, h]
  refine usable_of_settings hlogger fun s => ?_
  rw [hconfig, hgiven, Setting.inConfig_ofFlags, Setting.resolve_fresh]
  exact ⟨s.withDefaults_ne flags, rfl⟩

theorem usable_content {host : Host} {flags : Flags} {json : Body}
    (h : host.file flags.configFile = .content json) {g : Globals}
    (hg : init host flags = some g) :
    Usable host flags g ↔ ∀ s : Setting, s.inConfig (given host flags) ≠ "" := by
  have hgiven : given host flags = (decodeBody .fresh decodeGlobalConfig json).value := by
    rw [given, h]
  rw [init, h] at hg
  obtain ⟨hconfig, hlogger⟩ := initLogger_some hg
  rw [← hgiven] at hconfig
  constructor
  · intro husable s
    rw [← hconfig]
    exact (husable.settings s).1
  · intro hall
    refine usable_of_settings hlogger fun s => ?_
    rw [hconfig, Setting.resolve, if_pos (hall s)]
    exact ⟨hall s, rfl⟩

theorem init_malformed {host : Host} {flags : Flags}
    (h : host.file flags.configFile = .content none) : init host flags = none := by
  rw [init, h]
  exact initLogger_none.mpr ⟨rfl, host.openFile_empty⟩

/-- The settings are usable, or the process has exited, exactly when the config
file is absent or gives what is needed. -/
theorem settings_usable_iff (host : Host) (flags : Flags) :
    (∀ g, init host flags = some g → Usable host flags g) ↔ Suffices host flags := by
  cases hfile : host.file flags.configFile with
  | absent =>
    rw [Suffices, hfile]
    exact iff_of_true (fun g hg => usable_absent hfile hg) trivial
  | unreadable =>
    rw [Suffices, hfile]
    refine iff_of_false (fun h => ?_) id
    have hlogger := (h ⟨.fresh, none, ⟨none⟩⟩ (by rw [init, hfile])).logger
    cases hlogger
  | content json =>
    have hgiven : given host flags = (decodeBody .fresh decodeGlobalConfig json).value := by
      rw [given, hfile]
    have hexits : init host flags = none ↔ (given host flags).logToStdout = false ∧
        host.openFile (given host flags).logFile = false := by
      rw [init, hfile, hgiven]
      exact initLogger_none
    rw [Suffices, hfile]
    change _ ↔ (_ ∨ _)
    rw [← hexits]
    cases hinit : init host flags with
    | none => simp
    | some g =>
      rw [← usable_content hfile hinit]
      simp

def defaultFlags : Flags :=
  ⟨"", "", "./config.json", false, "batadv-vis -f jsondoc", "admin", "admin", ""⟩

/-- A config file that only asks for the log on the standard output. -/
def stdoutHost : Host where
  file name := if name = "./config.json" then .content (some (.obj [("log_to_stdout", .bool true)]))
    else .absent
  openFile name := name ≠ ""
  file_empty := if_neg (by decide)
  openFile_empty := rfl

def emptyGlobals : Globals := ⟨{ GlobalConfig.fresh with logToStdout := true }, some .stdout, ⟨none⟩⟩

theorem init_stdoutHost : init stdoutHost defaultFlags = some emptyGlobals := by
  rfl

theorem settings_not_usable :
    ¬ ∀ (host : Host) (flags : Flags) (g : Globals), init host flags = some g →
      Usable host flags g := by
  intro h
  have husable := h stdoutHost defaultFlags emptyGlobals init_stdoutHost
  have hrefused := husable.login (ascii "Basic") (encodeToString [58]) (by decide) (by decide)
  -- the empty credentials are the configured ones
  have haccepted : checkAuth emptyGlobals.config.basicAuth
      (ascii "Basic" ++ 32 :: encodeToString [58]) = true := by decide
  rw [haccepted] at hrefused
  cases hrefused

end NexFi.Web
