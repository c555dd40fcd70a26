import NexFi.HtmlTokens
import NexFi.TemplateText

/-!
# Dialogs

The six dialogs are templates whose placeholders all stand inside double-quoted
attribute values. `Template` escapes nothing.
-/

namespace NexFi.DialogText
open HtmlTokens StringRewriting TemplateText

/-- The code units of a character. -/
def codeUnits (c : Char) : Text :=
  if c.toNat < 65536 then [UInt16.ofNat c.toNat]
  else
    [UInt16.ofNat (55296 + (c.toNat - 65536) / 1024),
      UInt16.ofNat (56320 + (c.toNat - 65536) % 1024)]

def units (s : String) : Text := s.toList.flatMap codeUnits

/-- A line of a string literal that goes on in the next line, where the line end is dropped. -/
def line (indent : ℕ) (text : Text) : Text := List.replicate indent 32 ++ text

/-- An input of a form, with the attribute before its value and the end of its tag. -/
structure Control where
  label : String
  extra : String
  key : String
  tagEnd : String

def Control.group (indent : ℕ) (c : Control) : Text :=
  line indent (units "<div class=\"control-group\">") ++
  line (indent + 4) (units "<label class=\"control-label\">" ++ units c.label ++ units "</label>") ++
  line (indent + 4) (units "<div class=\"controls\">") ++
  line (indent + 8)
    (units "<input type=\"text\" style=\"height: 30px\" " ++ units c.extra ++
      units " value=\"" ++ placeholder (units c.key) ++ units "\"" ++ units c.tagEnd) ++
  line (indent + 4) (units "</div>") ++
  line indent (units "</div>")

def form (indent : ℕ) (cs : List Control) : Text :=
  line indent (units "<form class=\"form-horizontal\">") ++
  cs.flatMap (Control.group (indent + 4)) ++
  line indent (units "</form>")

def button (kind handler key label : String) : Text :=
  units "<button class=\"btn btn-large " ++ units kind ++
  units " btn-block\" style=\"margin-top: 20px;\" onclick=\"" ++ units handler ++ units "('" ++
  placeholder (units key) ++ units "');return false;\">" ++ units label ++ units "</button>"

inductive Dialog
  | menuDialog
  | detailDialog
  | detailNetwork
  | detailWireless
  | editWireless
  | globalConfigDialog

def modalTemplate : Dialog → Text
  | .menuDialog =>
    units "<div>" ++
    line 8 (units "<form class=\"form-horizontal\">") ++
    line 12 (units "<div class=\"control-group\">") ++
    line 16 (button "btn-success" "detailDialog" "macAddr" "查看节点详情") ++
    line 16 (button "btn-warning" "detailNetwork" "ipAddr" "有线网络详情") ++
    line 16 (button "btn-primary" "detailWireless" "ipAddr" "无线网络详情") ++
    line 12 (units "</div>") ++
    line 8 (units "</form>") ++
    line 4 (units "</div>")
  | .detailDialog =>
    form 4
      [⟨"设备编号：", "disabled", "no", " />"⟩, ⟨"IP地址：", "disabled", "ipaddress", " />"⟩,
        ⟨"adhoc0：", "disabled", "adhoc0", "/>"⟩, ⟨"br-lan：", "disabled", "br-lan", "/>"⟩,
        ⟨"eth1：", "disabled", "eth1", "/>"⟩]
  | .detailNetwork =>
    form 20
      [⟨"IP地址：", "disabled", "ipaddr", " />"⟩, ⟨"子网掩码：", "disabled", "netmask", "/>"⟩,
        ⟨"网络类型：", "disabled", "type", "/>"⟩, ⟨"端口名称：", "disabled", "ifname", "/>"⟩,
        ⟨"协议：", "disabled", "proto", "/>"⟩]
  | .detailWireless =>
    form 20
      [⟨"信道：", "disabled", "channel", " />"⟩, ⟨"发射功率：", "disabled", "txpower", "/>"⟩,
        ⟨"HTMODE：", "disabled", "htmode", "/>"⟩, ⟨"硬件模式：", "disabled", "hwmode", "/>"⟩,
        ⟨"国家：", "disabled", "country", "/>"⟩]
  | .editWireless =>
    form 8
      [⟨"信道：", "id=\"channel\"", "channel", " />"⟩, ⟨"发射功率：", "id=\"txpower\"", "txpower", "/>"⟩,
        ⟨"HTMODE：", "id=\"htmode\"", "htmode", "/>"⟩, ⟨"硬件模式：", "disabled", "hwmode", "/>"⟩,
        ⟨"国家：", "disabled", "country", "/>"⟩]
  | .globalConfigDialog =>
    form 12 [⟨"公司名称：", "id=\"new_title\"", "title", " />"⟩]

section Reading
variable (indent : ℕ)

theorem reads_spaces : Reads 36 .data (List.replicate indent 32) .data := by
  induction indent with
  | zero => exact ⟨trivial, rfl⟩
  | succ n ih =>
    have hspace : Reads 36 .data [32] .data := by decide
    exact hspace.append ih

theorem reads_line {text : Text} (h : Reads 36 .data text .data) :
    Reads 36 .data (line indent text) .data :=
  (reads_spaces indent).append h

/-- What a control says of itself stays in its place. -/
def Control.Plain (c : Control) : Prop :=
  Reads 36 .data (units c.label) .data ∧
  Reads 36 .beforeAttributeName (units c.extra ++ units " value=\"") .doubleQuoted ∧
  34 ∉ units c.key ∧
  Reads 36 .afterQuoted (units c.tagEnd) .data

instance : DecidablePred Control.Plain := fun c =>
  inferInstanceAs (Decidable (_ ∧ _ ∧ 34 ∉ units c.key ∧ _))

theorem reads_group {c : Control} (h : c.Plain) : Reads 36 .data (c.group indent) .data := by
  obtain ⟨hlabel, hextra, hkey, htagEnd⟩ := h
  have hgroup : Reads 36 .data (units "<div class=\"control-group\">") .data := by decide +kernel
  have hopen : Reads 36 .data (units "<label class=\"control-label\">") .data := by decide +kernel
  have hclose : Reads 36 .data (units "</label>") .data := by decide +kernel
  have hcontrols : Reads 36 .data (units "<div class=\"controls\">") .data := by decide +kernel
  have hinput : Reads 36 .data (units "<input type=\"text\" style=\"height: 30px\" ")
      .beforeAttributeName := by decide +kernel
  have hquote : Reads 36 .doubleQuoted (units "\"") .afterQuoted := by decide +kernel
  have hdiv : Reads 36 .data (units "</div>") .data := by decide +kernel
  have hplace : Reads 36 .doubleQuoted (placeholder (units c.key)) .doubleQuoted :=
    reads_doubleQuoted 36 (by simpa [placeholder_cons] using hkey)
  have htext := (hopen.append hlabel).append hclose
  have hvalue := (((hinput.append hextra).append hplace).append hquote).append htagEnd
  have hlines := ((reads_line indent hgroup).append (reads_line (indent + 4) htext)).append
    (reads_line (indent + 4) hcontrols)
  have hrest := ((reads_line (indent + 8) hvalue).append (reads_line (indent + 4) hdiv)).append
    (reads_line indent hdiv)
  simpa only [Control.group, List.append_assoc] using hlines.append hrest

theorem reads_form {cs : List Control} (h : ∀ c ∈ cs, c.Plain) :
    Reads 36 .data (form indent cs) .data := by
  have hgroups : Reads 36 .data (cs.flatMap (Control.group (indent + 4))) .data := by
    induction cs with
    | nil => exact ⟨trivial, rfl⟩
    | cons c cs ih =>
      rw [List.flatMap_cons]
      have hfirst := reads_group (indent + 4) (h c List.mem_cons_self)
      exact hfirst.append (ih fun d hd => h d (List.mem_cons_of_mem c hd))
  have hstart : Reads 36 .data (units "<form class=\"form-horizontal\">") .data := by
    decide +kernel
  have hend : Reads 36 .data (units "</form>") .data := by decide +kernel
  exact ((reads_line indent hstart).append hgroups).append (reads_line indent hend)

end Reading

theorem guarded_modalTemplate (d : Dialog) : Guarded 36 .data (modalTemplate d) := by
  cases d with
  | menuDialog => decide +kernel
  | detailDialog => exact (reads_form 4 (by decide +kernel)).1
  | detailNetwork => exact (reads_form 20 (by decide +kernel)).1
  | detailWireless => exact (reads_form 20 (by decide +kernel)).1
  | editWireless => exact (reads_form 8 (by decide +kernel)).1
  | globalConfigDialog => exact (reads_form 12 (by decide +kernel)).1

def keys (obj : Obj) : List Text := obj.entries.map Prod.fst

def values (obj : Obj) : List Text := obj.entries.map Prod.snd

section Markup
variable {obj : Obj} (hkeys : ∀ k ∈ keys obj, 34 ∉ k) (hvalues : ∀ v ∈ values obj, 34 ∉ v)
include hkeys hvalues

theorem quoteFree_rule : QuoteFree (Rule obj) 36 where
  head := by
    rintro p v ⟨k, -, rfl⟩
    exact ⟨_, placeholder_cons k⟩
  left := by
    rintro p v ⟨k, hentry, rfl⟩
    have hk := hkeys k (List.mem_map_of_mem hentry)
    simpa [placeholder_cons] using hk
  right := by
    rintro p v ⟨k, hentry, -⟩
    exact hvalues v (List.mem_map_of_mem hentry)

theorem template_markup {templateString result : Text} {passes : ℕ}
    (hguarded : Guarded 36 .data templateString)
    (hreturns : template obj 1 passes templateString = some result) :
    markup result = markup templateString := by
  obtain ⟨hreduces, -⟩ := template_reduces obj (List.Subset.refl _) hreturns
  exact ((quoteFree_rule hkeys hvalues).reduces_markup hguarded hreduces).2

end Markup

/-- Without a double quote in a key or a value, the tags of a dialog are those it was written with. -/
theorem markup_any_values (d : Dialog) (obj₁ obj₂ : Obj)
    (hsame : ∀ k, k ∈ keys obj₁ ↔ k ∈ keys obj₂) (hkeys : ∀ k ∈ keys obj₁, 34 ∉ k)
    (hvalues₁ : ∀ v ∈ values obj₁, 34 ∉ v) (hvalues₂ : ∀ v ∈ values obj₂, 34 ∉ v)
    (n₁ n₂ : ℕ) (result₁ result₂ : Text)
    (h₁ : template obj₁ 1 n₁ (modalTemplate d) = some result₁)
    (h₂ : template obj₂ 1 n₂ (modalTemplate d) = some result₂) :
    markup result₁ = markup result₂ ∧ markup result₁ = markup (modalTemplate d) := by
  have hkeys₂ : ∀ k ∈ keys obj₂, 34 ∉ k := fun k hk => hkeys k ((hsame k).mpr hk)
  have hguarded := guarded_modalTemplate d
  have hfirst := template_markup hkeys hvalues₁ hguarded h₁
  have hsecond := template_markup hkeys₂ hvalues₂ hguarded h₂
  exact ⟨hfirst.trans hsecond.symm, hfirst⟩

def titled (v : String) : Obj := ⟨[(units "title", units v)], List.nodup_singleton _⟩

theorem sameKeys_titled (v w : String) (k : Text) :
    k ∈ keys (titled v) ↔ k ∈ keys (titled w) := Iff.rfl

theorem keys_titled (v : String) : ∀ k ∈ keys (titled v), 34 ∉ k := by
  have htitle : 34 ∉ units "title" := by decide +kernel
  intro k hk
  rwa [List.mem_singleton.mp hk]

theorem markup_any_values_brackets :
    markup ((template (titled "<b>'") 1 1 (modalTemplate .globalConfigDialog)).get
        (by decide +kernel)) =
      markup ((template (titled "NexFi") 1 1 (modalTemplate .globalConfigDialog)).get
        (by decide +kernel)) :=
  (markup_any_values .globalConfigDialog (titled "<b>'") (titled "NexFi") (sameKeys_titled _ _)
    (keys_titled _) (by decide +kernel) (by decide +kernel) 1 1 _ _ (Option.some_get _).symm
    (Option.some_get _).symm).1

/-- From the first placeholder of the menu to its last, as one key. -/
def spanningKey : Text := ((modalTemplate .menuDialog).drop 201).take 328

def spanning : Obj := ⟨[(spanningKey, [])], List.nodup_singleton _⟩

theorem markup_not_kept :
    (¬ ∀ (d : Dialog) (obj₁ obj₂ : Obj), (∀ k, k ∈ keys obj₁ ↔ k ∈ keys obj₂) →
      (∀ k ∈ keys obj₁, 34 ∉ k) →
      ∀ (n₁ n₂ : ℕ) (result₁ result₂ : Text),
        template obj₁ 1 n₁ (modalTemplate d) = some result₁ →
        template obj₂ 1 n₂ (modalTemplate d) = some result₂ →
        markup result₁ = markup result₂ ∧ markup result₁ = markup (modalTemplate d)) ∧
    ¬ ∀ (d : Dialog) (obj₁ obj₂ : Obj), (∀ k, k ∈ keys obj₁ ↔ k ∈ keys obj₂) →
      (∀ v ∈ values obj₁, 34 ∉ v) → (∀ v ∈ values obj₂, 34 ∉ v) →
      ∀ (n₁ n₂ : ℕ) (result₁ result₂ : Text),
        template obj₁ 1 n₁ (modalTemplate d) = some result₁ →
        template obj₂ 1 n₂ (modalTemplate d) = some result₂ →
        markup result₁ = markup result₂ ∧ markup result₁ = markup (modalTemplate d) := by
  refine ⟨fun h => ?_, fun h => ?_⟩
  · have hplain : (template (titled "") 1 1 (modalTemplate .globalConfigDialog)).isSome := by
      decide +kernel
    have hquoted : (template (titled "\" onfocus=\"") 1 1
        (modalTemplate .globalConfigDialog)).isSome := by
      decide +kernel
    have hdiffer : (template (titled "") 1 1 (modalTemplate .globalConfigDialog)).map markup ≠
        (template (titled "\" onfocus=\"") 1 1
          (modalTemplate .globalConfigDialog)).map markup := by
      decide +kernel
    obtain ⟨result₁, h₁⟩ := Option.isSome_iff_exists.mp hplain
    obtain ⟨result₂, h₂⟩ := Option.isSome_iff_exists.mp hquoted
    obtain ⟨hmarkup, -⟩ := h .globalConfigDialog _ _ (sameKeys_titled _ _) (keys_titled _)
      1 1 result₁ result₂ h₁ h₂
    rw [h₁, h₂, Option.map_some, Option.map_some] at hdiffer
    exact hdiffer (congrArg some hmarkup)
  · have hspanning : (template spanning 1 1 (modalTemplate .menuDialog)).isSome := by
      decide +kernel
    have hdiffer : (template spanning 1 1 (modalTemplate .menuDialog)).map markup ≠
        some (markup (modalTemplate .menuDialog)) := by
      decide +kernel
    have hvalues : ∀ v ∈ values spanning, 34 ∉ v := by decide
    obtain ⟨result, hreturns⟩ := Option.isSome_iff_exists.mp hspanning
    obtain ⟨-, hmarkup⟩ := h .menuDialog spanning spanning (fun _ => Iff.rfl) hvalues hvalues
      1 1 result result hreturns hreturns
    rw [hreturns, Option.map_some] at hdiffer
    exact hdiffer (congrArg some hmarkup)

end NexFi.DialogText
