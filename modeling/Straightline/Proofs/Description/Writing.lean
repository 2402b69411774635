import Mathlib.Data.List.Sort
import Straightline.Proofs.Description.Layout
import Straightline.Proofs.Description.Reading

/-!
Written descriptions are read back. The lines of one hold the settings of its target, each under the
heading where it belongs, and no others; so every field is set once, to what the target has there.
-/
namespace Straightline

/-- Tables that find the same are the same. -/
theorem Builtins.eq_of_find?_eq {b c : Builtins} (h : ∀ n, b.find? n = c.find? n) : b = c := by
  have hirrefl : Std.Irrefl fun e e' : String × String => e.1 < e'.1 :=
    ⟨fun _ => String.lt_irrefl _⟩
  have hantisymm : Std.Antisymm fun e e' : String × String => e.1 < e'.1 :=
    ⟨fun _ _ hlt hgt => (String.lt_irrefl _ (String.lt_trans hlt hgt)).elim⟩
  have hentries : b.entries = c.entries :=
    b.sorted.eq_of_mem_iff c.sorted fun e => by rw [mem_entries_iff, mem_entries_iff, h]
  cases b
  cases c
  cases hentries
  rfl

attribute [ext] Target

namespace Target.Description

open Text

/-! ## Settings as they are found -/

variable {h : String} {l v : List Char} {ls : List (List Char)} {ss : List (Field × List Char)}
  {s : Field × List Char} {xs ys : List (String × List Char)}

/-- A setting that a line can hold. -/
structure IsSetting (s : Field × List Char) : Prop where
  key : IsKey s.1.key
  value : IsValue s.2

theorem Body.mem_cases (hls : Body ss ls) (hl : l ∈ ls) :
    Filler l ∨ ∃ s ∈ ss, SettingLine s.1.key s.2 l := by
  induction hls with
  | nil => cases hl
  | filler hfiller _ ih =>
    rcases List.mem_cons.1 hl with rfl | hl
    · exact .inl hfiller
    · exact ih hl
  | setting hsetting _ ih =>
    rcases List.mem_cons.1 hl with rfl | hl
    · exact .inr ⟨_, .head _, hsetting⟩
    · exact (ih hl).imp_right fun ⟨s, hs, hline⟩ => ⟨s, .tail _ hs, hline⟩

theorem Body.exists_line (hls : Body ss ls) (hs : s ∈ ss) :
    ∃ l ∈ ls, SettingLine s.1.key s.2 l := by
  induction hls with
  | nil => cases hs
  | filler _ _ ih =>
    obtain ⟨l, hl, hline⟩ := ih hs
    exact ⟨l, .tail _ hl, hline⟩
  | setting hsetting _ ih =>
    rcases List.mem_cons.1 hs with rfl | hs
    · exact ⟨_, .head _, hsetting⟩
    · obtain ⟨l, hl, hline⟩ := ih hs
      exact ⟨l, .tail _ hl, hline⟩

theorem Body.isHeading_eq_false (hls : Body ss ls) (hss : ∀ s ∈ ss, IsSetting s) (hl : l ∈ ls) :
    isHeading l = false := by
  rcases hls.mem_cases hl with hfiller | ⟨s, hs, hline⟩
  · exact isHeading_of_isSilent hfiller.isSilent
  · exact (isPlain_iff.1 (hline.isPlain (hss s hs).key (hss s hs).value)).2

theorem Body.newline (hls : Body ss ls) (hss : ∀ s ∈ ss, IsSetting s) (hl : l ∈ ls) :
    '\n' ∉ l := by
  rcases hls.mem_cases hl with hfiller | ⟨s, hs, hline⟩
  · exact hfiller.newline
  · exact hline.newline (hss s hs).key (hss s hs).value

/-- The lines, under their headings, hold the settings and no others. -/
structure Shows (ss : List (Field × List Char)) (xs : List (String × List Char)) : Prop where
  only : ∀ x ∈ xs, isPlain x.2 = true →
    ∃ s ∈ ss, x.1 = s.1.heading ∧ SettingLine s.1.key s.2 x.2
  every : ∀ s ∈ ss, ∃ x ∈ xs, x.1 = s.1.heading ∧ SettingLine s.1.key s.2 x.2

theorem shows_nil (hxs : ∀ x ∈ xs, isPlain x.2 = false) : Shows [] xs where
  only x hx hplain := nomatch (hxs x hx).symm.trans hplain
  every _ hs := nomatch hs

theorem Shows.of_mem_iff {ts : List (Field × List Char)} (hxs : Shows ss xs)
    (hmem : ∀ s, s ∈ ss ↔ s ∈ ts) : Shows ts xs where
  only x hx hplain := by
    obtain ⟨s, hs, hline⟩ := hxs.only x hx hplain
    exact ⟨s, (hmem s).1 hs, hline⟩
  every s hs := hxs.every s ((hmem s).2 hs)

theorem Shows.append {ts : List (Field × List Char)} (hxs : Shows ss xs) (hys : Shows ts ys) :
    Shows (ss ++ ts) (xs ++ ys) where
  only x hx hplain := by
    rcases List.mem_append.1 hx with hx | hx
    · obtain ⟨s, hs, hline⟩ := hxs.only x hx hplain
      exact ⟨s, List.mem_append_left _ hs, hline⟩
    · obtain ⟨s, hs, hline⟩ := hys.only x hx hplain
      exact ⟨s, List.mem_append_right _ hs, hline⟩
  every s hs := by
    rcases List.mem_append.1 hs with hs | hs
    · obtain ⟨x, hx, hline⟩ := hxs.every s hs
      exact ⟨x, List.mem_append_left _ hx, hline⟩
    · obtain ⟨x, hx, hline⟩ := hys.every s hs
      exact ⟨x, List.mem_append_right _ hx, hline⟩

theorem Body.shows (hls : Body ss ls) (hss : ∀ s ∈ ss, IsSetting s ∧ s.1.heading = h) :
    Shows ss (placed h ls) := by
  have hplaced : placed h ls = ls.map (h, ·) :=
    placed_of_no_heading fun l hl => hls.isHeading_eq_false (fun s hs => (hss s hs).1) hl
  rw [hplaced]
  constructor
  · rintro x hx hplain
    obtain ⟨l, hl, rfl⟩ := List.mem_map.1 hx
    rcases hls.mem_cases hl with hfiller | ⟨s, hs, hline⟩
    · cases (isPlain_iff.1 hplain).1.symm.trans hfiller.isSilent
    · exact ⟨s, hs, (hss s hs).2.symm, hline⟩
  · intro s hs
    obtain ⟨l, hl, hline⟩ := hls.exists_line hs
    exact ⟨(h, l), List.mem_map_of_mem hl, (hss s hs).2.symm, hline⟩

theorem Part.shows (hls : Part h ss ls) (hss : ∀ s ∈ ss, IsSetting s ∧ s.1.heading = h)
    (hname : trim h.toList = h.toList) (g : String) : Shows ss (placed g ls) := by
  cases hls with
  | @mk l ts ls hl hts hls =>
    have hfirst : Shows [] [(g, l)] := shows_nil (by simp [isPlain, hl.isHeading])
    have hrest : Shows ts (placed h ls) := hls.shows fun s hs => hss s (hts.mem_iff.1 hs)
    rw [placed_cons, headingAfter_singleton, if_pos hl.isHeading, hl.headingOf_eq hname]
    exact (hfirst.append hrest).of_mem_iff fun s => by rw [List.nil_append, hts.mem_iff]

theorem Part.newline (hls : Part h ss ls) (hss : ∀ s ∈ ss, IsSetting s)
    (hname : '\n' ∉ h.toList) : ∀ l ∈ ls, '\n' ∉ l := by
  cases hls with
  | mk hl hts hls =>
    exact List.forall_mem_cons.2
      ⟨hl.newline hname, fun m hm => hls.newline (fun s hs => hss s (hts.mem_iff.1 hs)) hm⟩

/-- Parts one after another show what belongs under their headings. -/
theorem shows_parts {headings : List String} {parts : List (List (List Char))}
    (hss : ∀ s ∈ ss, IsSetting s) (hnames : ∀ h ∈ headings, trim h.toList = h.toList)
    (hparts : List.Forall₂ (fun h => Part h (ss.filter (·.1.heading = h))) headings parts)
    (g : String) :
    Shows (headings.flatMap fun h => ss.filter (·.1.heading = h)) (placed g parts.flatten) := by
  induction hparts generalizing g with
  | nil => exact shows_nil fun _ hx => nomatch hx
  | @cons h ls headings parts hls _ ih =>
    rw [List.forall_mem_cons] at hnames
    have hsettings : ∀ s ∈ ss.filter (·.1.heading = h), IsSetting s ∧ s.1.heading = h :=
      fun s hs => ⟨hss s (List.mem_of_mem_filter hs), by simpa using (List.mem_filter.1 hs).2⟩
    -- A part begins with its own heading, so it does not matter which one was in force before it.
    rw [List.flatMap_cons, List.flatten_cons, placed_append]
    exact (hls.shows hsettings hnames.1 g).append (ih hnames.2 _)

theorem newline_parts {headings : List String} {parts : List (List (List Char))}
    (hss : ∀ s ∈ ss, IsSetting s) (hnames : ∀ h ∈ headings, '\n' ∉ h.toList)
    (hparts : List.Forall₂ (fun h => Part h (ss.filter (·.1.heading = h))) headings parts) :
    ∀ l ∈ parts.flatten, '\n' ∉ l := by
  induction hparts with
  | nil => exact fun _ hl => nomatch hl
  | cons hls _ ih =>
    rw [List.forall_mem_cons] at hnames
    rw [List.flatten_cons]
    refine List.forall_mem_append.2 ⟨?_, ih hnames.2⟩
    exact hls.newline (fun s hs => hss s (List.mem_of_mem_filter hs)) hnames.1

/-- The values of a field are those that the settings give it. -/
theorem Shows.mem_valuesIn_iff (hxs : Shows ss xs) (hss : ∀ s ∈ ss, IsSetting s) {f : Field} :
    v ∈ valuesIn f xs ↔ (f, v) ∈ ss := by
  rw [mem_valuesIn]
  constructor
  · rintro ⟨x, hx, hsets, rfl⟩
    obtain ⟨hplain, -, hf⟩ := sets_iff.1 hsets
    obtain ⟨s, hs, hheading, hline⟩ := hxs.only x hx hplain
    have hsetting := hss s hs
    have hkey := hline.keyOf_eq hsetting.key
    rw [Field.eq_of_heading_key hf ⟨hheading, hkey⟩, hline.valueOf_eq hsetting.key hsetting.value]
    exact hs
  · intro hs
    have hsetting := hss _ hs
    obtain ⟨x, hx, hheading, hline⟩ := hxs.every _ hs
    refine ⟨x, hx, sets_iff.2 ?_, hline.valueOf_eq hsetting.key hsetting.value⟩
    exact ⟨hline.isPlain hsetting.key hsetting.value, hline.equals, hheading,
      hline.keyOf_eq hsetting.key⟩

/-! ## Targets as they are read back -/

/-- The value that the settings of a target give to a field. -/
def settingOf? (t : Target) (arch : String) (digits : List Char) : Field → Option (List Char)
  | .name => some (quoted t.name)
  | .displayName => some (quoted t.displayName)
  | .architecture => some (quoted arch)
  | .symbolPrefix => some (quoted t.symbolPrefix)
  | .entryPoint => some (quoted t.entryPoint)
  | .argumentRegisters => some digits
  | .builtin n => (t.builtins.find? n).map quoted

variable {t : Target} {arch text : String} {digits : List Char} {f : Field}

theorem mem_settingsOf_iff : (f, v) ∈ settingsOf t arch digits ↔
    settingOf? t arch digits f = some v := by
  cases f with
  | builtin n =>
    simp [settingsOf, settingOf?, ← Builtins.mem_entries_iff]
  | _ => simp [settingsOf, settingOf?, eq_comm]

theorem isText_of_architecture? {a : Architecture} (harch : architecture? arch = some a) :
    IsText arch := by
  rcases architecture?_eq_some_iff.1 harch with rfl | rfl <;> constructor <;> decide

theorem Field.isKey (hf : ∀ n, f ≠ .builtin n) : IsKey f.key := by
  cases f with
  | builtin n => exact (hf n rfl).elim
  | _ => constructor <;> decide

theorem isSetting_of_mem (ht : Describable t) (harch : architecture? arch = some t.architecture)
    (hdigits : IsValue digits) (hs : s ∈ settingsOf t arch digits) : IsSetting s := by
  obtain ⟨f, v⟩ := s
  rw [mem_settingsOf_iff] at hs
  cases f with
  | builtin n =>
    obtain ⟨symbol, hfind, rfl⟩ := Option.map_eq_some_iff.1 hs
    have hmem := Builtins.mem_entries_iff.2 hfind
    exact ⟨ht.names _ hmem, isValue_quoted (ht.symbols _ hmem).newline⟩
  | argumentRegisters =>
    cases hs
    exact ⟨Field.isKey nofun, hdigits⟩
  | architecture =>
    cases hs
    exact ⟨Field.isKey nofun, isValue_quoted (isText_of_architecture? harch).newline⟩
  | name | displayName | symbolPrefix | entryPoint =>
    cases hs
    exact ⟨Field.isKey nofun, isValue_quoted (ht.texts _ (by simp)).newline⟩

theorem Field.heading_mem (f : Field) : f.heading ∈ ["target", "abi", "builtins"] := by
  cases f <;> simp [heading]

/-- The lines hold the settings of the target, its architecture and its number spelled as given. -/
structure Presents (t : Target) (arch : String) (digits : List Char) (ls : List (List Char)) :
    Prop where
  architecture : architecture? arch = some t.architecture
  registers : Spells digits t.argumentRegisters
  settings : ∀ s ∈ settingsOf t arch digits, IsSetting s
  shows : Shows (settingsOf t arch digits) (placed "" ls)

theorem Written.presents (ht : Describable t) (hw : Written t text) :
    ∃ arch digits, Presents t arch digits (lines text) := by
  cases hw with
  | @mk arch digits front headings parts harch hne hdigits hvalue hfront hheadings hparts =>
    have hss := fun s hs => isSetting_of_mem (s := s) ht harch (isValue_digits hne hdigits) hs
    have hnames : ∀ h ∈ headings, trim h.toList = h.toList ∧ '\n' ∉ h.toList := by
      have hthree : ∀ h ∈ ["target", "abi", "builtins"],
          trim h.toList = h.toList ∧ '\n' ∉ h.toList := by decide
      exact fun h hh => hthree h (hheadings.mem_iff.1 hh)
    have hshown : Shows (settingsOf t arch digits) (placed "" (front ++ parts.flatten)) := by
      have hsilent : ∀ x ∈ placed "" front, isPlain x.2 = false := by
        rw [placed_of_no_heading fun l hl => isHeading_of_isSilent (hfront l hl).isSilent]
        intro x hx
        obtain ⟨l, hl, rfl⟩ := List.mem_map.1 hx
        simp [isPlain, (hfront l hl).isSilent]
      rw [placed_append]
      refine ((shows_nil hsilent).append
        (shows_parts hss (fun h hh => (hnames h hh).1) hparts _)).of_mem_iff fun s => ?_
      have hmem : s.1.heading ∈ headings := hheadings.mem_iff.2 s.1.heading_mem
      simp [hmem]
    have hlines : lines (.ofList (['\n'].intercalate (front ++ parts.flatten))) =
        front ++ parts.flatten := by
      rw [lines, String.toList_ofList]
      refine splitLines_intercalate ?_ (List.forall_mem_append.2 ⟨fun l hl => (hfront l hl).newline,
        newline_parts hss (fun h hh => (hnames h hh).2) hparts⟩)
      -- There is a line, since the name is set on one.
      intro hnil
      obtain ⟨x, hx, -⟩ := hshown.every (.name, quoted t.name) (.head _)
      rw [hnil] at hx
      cases hx
    have hspells : Spells digits t.argumentRegisters :=
      ⟨digits, .inl rfl, hne, hdigits, hvalue, ht.argumentRegisters⟩
    rw [← hlines] at hshown
    exact ⟨arch, digits, harch, hspells, hss, hshown⟩

theorem Presents.mem_values_iff (hls : Presents t arch digits ls) :
    v ∈ values ls f ↔ settingOf? t arch digits f = some v :=
  (hls.shows.mem_valuesIn_iff hls.settings).trans mem_settingsOf_iff

theorem Presents.getLast?_values (hls : Presents t arch digits ls) (f : Field) :
    (values ls f).getLast? = settingOf? t arch digits f := by
  cases hlast : (values ls f).getLast? with
  | some v => exact (hls.mem_values_iff.1 (List.mem_of_getLast? hlast)).symm
  | none =>
    cases hsetting : settingOf? t arch digits f with
    | none => rfl
    | some v =>
      have hmem := hls.mem_values_iff.2 hsetting
      rw [List.getLast?_eq_none_iff.1 hlast] at hmem
      cases hmem

theorem Presents.finalText_eq (hls : Presents t arch digits ls) {s : String}
    (hf : settingOf? t arch digits f = some (quoted s)) (hs : IsText s) (default : String) :
    finalText ls f default = s := by
  rw [finalText, hls.getLast?_values, hf, Option.map_some, unquote_quoted hs, Option.getD_some]

theorem Presents.acceptable (hls : Presents t arch digits ls) (ht : Describable t) :
    Acceptable ls where
  plain x hx hplain := by
    obtain ⟨s, hs, hheading, hline⟩ := hls.shows.only x hx hplain
    exact ⟨hline.equals, s.1, hheading, hline.keyOf_eq (hls.settings s hs).key⟩
  architecture v hv := by
    obtain rfl := Option.some.inj (hls.mem_values_iff.1 hv)
    rw [unquote_quoted (isText_of_architecture? hls.architecture)]
    exact architecture?_eq_some_iff.1 hls.architecture
  argumentRegisters v hv := by
    obtain rfl := Option.some.inj (hls.mem_values_iff.1 hv)
    exact ⟨_, hls.registers⟩
  name := by
    rw [hls.finalText_eq (s := t.name) rfl (ht.texts _ (by simp))]
    exact ht.name
  entryPoint := by
    rw [hls.finalText_eq (s := t.entryPoint) rfl (ht.texts _ (by simp))]
    exact ht.entryPoint

theorem Spells.unique {m n : Nat} (hm : Spells v m) (hn : Spells v n) : m = n :=
  Option.some.inj ((word64?_eq_some_iff.2 hm).symm.trans (word64?_eq_some_iff.2 hn))

theorem Presents.architecture_eq (hls : Presents t arch digits ls) {u : Target}
    (hu : Described ls u) : u.architecture = t.architecture := by
  have hread := hu.architecture
  simp only [LastSays, hls.getLast?_values, settingOf?,
    unquote_quoted (isText_of_architecture? hls.architecture)] at hread
  exact Option.some.inj (hread.symm.trans hls.architecture)

theorem Presents.argumentRegisters_eq (hls : Presents t arch digits ls) {u : Target}
    (hu : Described ls u) : u.argumentRegisters = t.argumentRegisters := by
  have hlast := hu.argumentRegisters
  rw [LastSays, hls.getLast?_values] at hlast
  exact Spells.unique hlast hls.registers

theorem Presents.builtins_eq (hls : Presents t arch digits (lines text)) (ht : Describable t)
    {u : Target} (hu : ofDescription text = .ok u) : u.builtins = t.builtins := by
  -- Some builtin is set, so nothing is left of the table on Darwin.
  have hset : ∃ n, values (lines text) (.builtin n) ≠ [] := by
    obtain ⟨e, he⟩ := List.exists_mem_of_ne_nil _ ht.builtins
    have hmem : quoted e.2 ∈ values (lines text) (.builtin e.1) :=
      hls.mem_values_iff.2 (congrArg (Option.map quoted) (Builtins.mem_entries_iff.1 he))
    exact ⟨e.1, List.ne_nil_of_mem hmem⟩
  refine Builtins.eq_of_find?_eq fun n => ?_
  rw [(find?_of_ofDescription hu).2 hset n, hls.getLast?_values, settingOf?]
  cases hfind : t.builtins.find? n with
  | none => rfl
  | some symbol =>
    exact congrArg some (unquote_quoted (ht.symbols _ (Builtins.mem_entries_iff.2 hfind)))

/-- A description of a target is read back as the target. -/
theorem written_description_read_back (ht : Describable t) (hw : Written t text) :
    ofDescription text = .ok t := by
  obtain ⟨arch, digits, hls⟩ := hw.presents ht
  obtain ⟨u, hu⟩ := exists_ofDescription_iff.2 (hls.acceptable ht)
  have hd := described_of_ofDescription hu
  rw [hu]
  refine congrArg Except.ok (Target.ext ?_ ?_ (hls.architecture_eq hd) ?_ ?_
    (hls.argumentRegisters_eq hd) (hls.builtins_eq ht hu))
  · exact hd.name.trans (hls.finalText_eq rfl (ht.texts _ (by simp)) _)
  · exact hd.displayName.trans (hls.finalText_eq rfl (ht.texts _ (by simp)) _)
  · exact hd.symbolPrefix.trans (hls.finalText_eq rfl (ht.texts _ (by simp)) _)
  · exact hd.entryPoint.trans (hls.finalText_eq rfl (ht.texts _ (by simp)) _)

/-- A target whose texts look like other parts of a description. -/
def awkwardTarget : Target where
  name := "a = b"
  displayName := "# one \"two\" [three]"
  architecture := .arm64
  symbolPrefix := ""
  entryPoint := "[start]"
  argumentRegisters := 12
  builtins := { entries := [("", "x = y"), ("[print", "\r")] }

def awkwardDescription : String :=
  " # by hand\n[builtins]\n\t[print =\"\r\" \r\n = \"x = y\"\n \n" ++
  " [abi]\nargument_registers=012\n" ++
  "[target]\t\nentry_point = \"[start]\"\n#[abi]\nname=\"a = b\"\n" ++
  "display_name = \"# one \"two\" [three]\"\narchitecture=\"aarch64\"\n" ++
  "\tsymbol_prefix\t=\t\"\"\t\n"

theorem written_description_read_back_awkward :
    ofDescription awkwardDescription = .ok awkwardTarget := by
  have hnone : IsPad [] := by decide
  have hspace : IsPad [' '] := by decide
  have htab : IsPad ['\t'] := by decide
  have hreturn : IsPad [' ', '\r'] := by decide
  have hbuiltins : Part "builtins"
      [(.builtin "", quoted "x = y"), (.builtin "[print", quoted "\r")] _ :=
    .mk (.mk hnone hnone) (.swap _ _ _)
      (.setting (.mk htab hspace hnone hreturn)
      (.setting (.mk hnone hspace hspace hnone)
      (.filler (.blank hspace) .nil)))
  have habi : Part "abi" [(.argumentRegisters, ['0', '1', '2'])] _ :=
    .mk (.mk hspace hnone) (.refl _) (.setting (.mk hnone hnone hnone hnone) .nil)
  have htarget : Part "target"
      [(.name, quoted "a = b"), (.displayName, quoted "# one \"two\" [three]"),
        (.architecture, quoted "aarch64"), (.symbolPrefix, quoted ""),
        (.entryPoint, quoted "[start]")] _ :=
    .mk (.mk hnone htab) (List.perm_append_singleton _ [_, _, _, _]).symm
      (.setting (.mk hnone hspace hspace hnone)
      (.filler (show Filler "#[abi]".toList from .comment hnone (by decide))
      (.setting (.mk hnone hnone hnone hnone)
      (.setting (.mk hnone hspace hspace hnone)
      (.setting (.mk hnone hnone hnone hnone)
      (.setting (.mk htab htab htab htab)
      (.filler (.blank hnone) .nil)))))))
  have hw := @Written.mk awkwardTarget "aarch64" ['0', '1', '2'] [" # by hand".toList]
    ["builtins", "abi", "target"] _ rfl (by decide) (List.all_eq_true.1 (by decide)) rfl
    (by simpa using Filler.comment hspace (by decide)) (by decide)
    (.cons hbuiltins (.cons habi (.cons htarget .nil)))
  refine written_description_read_back (by decide) (Eq.mp (congrArg (Written _) ?_) hw)
  decide +kernel

end Target.Description

end Straightline
