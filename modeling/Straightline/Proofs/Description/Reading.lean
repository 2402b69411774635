import Straightline.Proofs.Description.Lines
import Straightline.Proofs.Results

/-!
Reading a description line by line comes to what its lines say. A line changes the one field that it
sets, so after all lines each field is what the last line says that sets it; the table of builtins
begins anew as soon as one line sets a builtin.
-/
namespace Straightline

/-- The table has one symbol for each of its names. -/
theorem Builtins.mem_entries_iff {b : Builtins} {name symbol : String} :
    (name, symbol) ∈ b.entries ↔ b.find? name = some symbol := by
  rw [find?, List.lookup_eq_some_iff]
  constructor
  · intro h
    obtain ⟨before, after, hsplit⟩ := List.append_of_mem h
    refine ⟨before, after, hsplit, fun e he => ?_⟩
    have hsorted := b.sorted
    rw [hsplit, List.pairwise_append] at hsorted
    have hlt : e.1 < name := hsorted.2.2 e he _ (.head _)
    exact bne_iff_ne.2 fun heq => String.lt_irrefl _ (heq ▸ hlt)
  · rintro ⟨before, after, hsplit, -⟩
    simp [hsplit]

namespace Target.Description

open Text

variable {h : String} {l : List Char} {ls : List (List Char)} {x : String × List Char}
  {d d' : Draft} {f : Field} {v : List Char}

/-! ## One line -/

/-- What setting a field does to a draft. -/
theorem set_eq_ok : d.set f v = .ok d' ↔ match f with
    | .name => d' = { d with target := { d.target with name := unquote v } }
    | .displayName => d' = { d with target := { d.target with displayName := unquote v } }
    | .architecture => ∃ a, architecture? (unquote v) = some a ∧
        d' = { d with target := { d.target with architecture := a } }
    | .symbolPrefix => d' = { d with target := { d.target with symbolPrefix := unquote v } }
    | .entryPoint => d' = { d with target := { d.target with entryPoint := unquote v } }
    | .argumentRegisters => ∃ n, Spells v n ∧
        d' = { d with target := { d.target with argumentRegisters := n } }
    | .builtin name =>
        d' = { d with builtins := some ((d.builtins.getD {}).insert name (unquote v)) } := by
  cases f with
  | architecture =>
    simp only [Draft.set]
    cases architecture? (unquote v) with
    | none => simp
    | some a =>
      constructor
      · exact fun hd => ⟨a, rfl, (Except.ok.inj hd).symm⟩
      · rintro ⟨_, ⟨⟩, rfl⟩
        rfl
  | argumentRegisters =>
    simp only [Draft.set, ← word64?_eq_some_iff]
    cases Numeral.word64? v with
    | none => simp
    | some n =>
      constructor
      · exact fun hd => ⟨n, rfl, (Except.ok.inj hd).symm⟩
      · rintro ⟨_, ⟨⟩, rfl⟩
        rfl
  | name | displayName | symbolPrefix | entryPoint | builtin => simp [Draft.set, eq_comm (b := d')]

/-- Setting a field changes that field and nothing else. -/
structure Changes (f : Field) (v : List Char) (d d' : Draft) : Prop where
  heading : d'.heading = d.heading
  name : if f = .name then unquote v = d'.target.name else d'.target.name = d.target.name
  displayName : if f = .displayName then unquote v = d'.target.displayName
    else d'.target.displayName = d.target.displayName
  architecture : if f = .architecture then architecture? (unquote v) = some d'.target.architecture
    else d'.target.architecture = d.target.architecture
  symbolPrefix : if f = .symbolPrefix then unquote v = d'.target.symbolPrefix
    else d'.target.symbolPrefix = d.target.symbolPrefix
  entryPoint : if f = .entryPoint then unquote v = d'.target.entryPoint
    else d'.target.entryPoint = d.target.entryPoint
  argumentRegisters : if f = .argumentRegisters then Spells v d'.target.argumentRegisters
    else d'.target.argumentRegisters = d.target.argumentRegisters
  builtin : ∀ n, if f = .builtin n then (d'.builtins.getD {}).find? n = some (unquote v)
    else (d'.builtins.getD {}).find? n = (d.builtins.getD {}).find? n
  /-- The table that stands if no builtin is set. -/
  standing : d'.target.builtins = d.target.builtins
  unset : (∀ n, f ≠ .builtin n) → d'.builtins = d.builtins

theorem changes_of_set (hd : d.set f v = .ok d') : Changes f v d d' := by
  have hd := set_eq_ok.1 hd
  cases f with
  | architecture =>
    obtain ⟨a, ha, rfl⟩ := hd
    constructor <;> simp [ha]
  | argumentRegisters =>
    obtain ⟨n, hn, rfl⟩ := hd
    constructor <;> simp [hn]
  | builtin m =>
    subst hd
    constructor
    case builtin =>
      intro n
      by_cases hn : m = n
      · simp [hn]
      · simp [hn, Ne.symm hn]
    all_goals simp
  | name | displayName | symbolPrefix | entryPoint =>
    subst hd
    constructor <;> simp

theorem architecture?_eq_some_iff {name : String} {a : Architecture} :
    architecture? name = some a ↔ name = "arm64" ∨ name = "aarch64" := by
  unfold architecture?
  cases a
  split <;> simp [*]

theorem exists_set_iff : (∃ d', d.set f v = .ok d') ↔ f.Admits v := by
  simp only [set_eq_ok]
  cases f with
  | architecture =>
    simp only [architecture?_eq_some_iff]
    exact ⟨fun ⟨_, _, hv, _⟩ => hv, fun hv => ⟨_, .arm64, hv, rfl⟩⟩
  | argumentRegisters => exact ⟨fun ⟨_, n, hn, _⟩ => ⟨n, hn⟩, fun ⟨n, hn⟩ => ⟨_, n, hn, rfl⟩⟩
  | name | displayName | symbolPrefix | entryPoint | builtin => simp [Field.Admits]

theorem step_setting_eq_ok {key : String} : d.step (.setting key v) = .ok d' ↔
    ∃ f : Field, d.heading = f.heading ∧ key = f.key ∧ d.set f v = .ok d' := by
  simp only [← and_assoc, ← Field.ofKey?_eq_some_iff, Draft.step]
  cases Field.ofKey? d.heading key <;> simp

/-- What a line does to a draft. -/
theorem step_eq_ok : d.step (Entry.ofLine l) = .ok d' ↔
    (isSilent l = true ∧ d' = d) ∨
    (isHeading l = true ∧ d' = { d with heading := headingOf l }) ∨
    (isPlain l = true ∧ '=' ∈ l ∧ ∃ f : Field, d.heading = f.heading ∧ keyOf l = f.key ∧
      d.set f (valueOf l) = .ok d') := by
  rw [ofLine_eq]
  by_cases hs : isSilent l = true
  · simp [hs, isPlain, isHeading_of_isSilent hs, Draft.step, eq_comm (a := d)]
  · by_cases hh : isHeading l = true
    · simp [hs, hh, isPlain, Draft.step, eq_comm (b := d')]
    · by_cases heq : '=' ∈ l
      · simp [hs, hh, heq, isPlain, step_setting_eq_ok]
      · simp [hs, hh, heq, isPlain, Draft.step]

theorem heading_of_step (hd : d.step (Entry.ofLine l) = .ok d') :
    d'.heading = headingAfter d.heading [l] := by
  rw [headingAfter_singleton]
  obtain ⟨hl, rfl⟩ | ⟨hl, rfl⟩ | ⟨hl, -, f, -, -, hset⟩ := step_eq_ok.1 hd
  · rw [isHeading_of_isSilent hl]
    rfl
  · rw [if_pos hl]
  · rw [(isPlain_iff.1 hl).2]
    exact (changes_of_set hset).heading

theorem exists_step_iff : (∃ d', d.step (Entry.ofLine l) = .ok d') ↔ Legible (d.heading, l) := by
  constructor
  · rintro ⟨d', hd⟩ hplain
    obtain ⟨hsilent, hheading⟩ := isPlain_iff.1 hplain
    obtain ⟨hl, -⟩ | ⟨hl, -⟩ | ⟨-, heq, f, hh, hk, hset⟩ := step_eq_ok.1 hd
    · cases hsilent.symm.trans hl
    · cases hheading.symm.trans hl
    · exact ⟨heq, f, hh, hk, exists_set_iff.1 ⟨d', hset⟩⟩
  · intro hl
    by_cases hs : isSilent l = true
    · exact ⟨d, step_eq_ok.2 (.inl ⟨hs, rfl⟩)⟩
    · by_cases hh : isHeading l = true
      · exact ⟨_, step_eq_ok.2 (.inr (.inl ⟨hh, rfl⟩))⟩
      · have hplain : isPlain l = true := by simp [isPlain, hs, hh]
        obtain ⟨heq, f, hd, hk, hv⟩ := hl hplain
        obtain ⟨d', hset⟩ := exists_set_iff.2 hv
        exact ⟨d', step_eq_ok.2 (.inr (.inr ⟨hplain, heq, f, hd, hk, hset⟩))⟩

/-- A line sets nothing, or one field and no other. -/
theorem step_cases (hd : d.step (Entry.ofLine l) = .ok d') :
    ((∀ f, sets f (d.heading, l) = false) ∧ ∃ h, d' = { d with heading := h }) ∨
    ∃ g, (∀ f, sets f (d.heading, l) = true ↔ g = f) ∧ d.set g (valueOf l) = .ok d' := by
  obtain ⟨hl, rfl⟩ | ⟨hl, rfl⟩ | ⟨hl, heq, g, hh, hk, hset⟩ := step_eq_ok.1 hd
  · exact .inl ⟨fun _ => sets_eq_false (by simp [isPlain, hl]), d'.heading, rfl⟩
  · exact .inl ⟨fun _ => sets_eq_false (by simp [isPlain, hl]), _, rfl⟩
  · refine .inr ⟨g, fun f => ?_, hset⟩
    rw [sets_iff]
    constructor
    · rintro ⟨-, -, hf⟩
      exact Field.eq_of_heading_key ⟨hh, hk⟩ hf
    · rintro rfl
      exact ⟨hl, heq, hh, hk⟩

/-! ## All lines -/

/-- A draft after the lines of a description. -/
def Draft.readAll (d : Draft) (ls : List (List Char)) : Except Error Draft :=
  (ls.map Entry.ofLine).foldlM Draft.step d

theorem readAll_cons_eq_ok : d.readAll (l :: ls) = .ok d' ↔
    ∃ d₁, d.step (Entry.ofLine l) = .ok d₁ ∧ d₁.readAll ls = .ok d' := by
  rw [Draft.readAll, List.map_cons, List.foldlM_cons]
  exact except_bind_eq_ok

theorem exists_readAll_iff :
    (∃ d', d.readAll ls = .ok d') ↔ ∀ x ∈ placed d.heading ls, Legible x := by
  induction ls generalizing d with
  | nil => exact ⟨fun _ x hx => (nomatch hx), fun _ => ⟨d, rfl⟩⟩
  | cons l ls ih =>
    rw [placed_cons, List.forall_mem_cons, ← exists_step_iff]
    constructor
    · rintro ⟨d', hd⟩
      obtain ⟨d₁, hl, hd⟩ := readAll_cons_eq_ok.1 hd
      refine ⟨⟨d₁, hl⟩, ?_⟩
      rw [← heading_of_step hl]
      exact ih.1 ⟨d', hd⟩
    · rintro ⟨⟨d₁, hl⟩, hls⟩
      rw [← heading_of_step hl] at hls
      obtain ⟨d', hd⟩ := ih.2 hls
      exact ⟨d', readAll_cons_eq_ok.2 ⟨d₁, hl, hd⟩⟩

/-- A part `π` of the draft that only the field `f` has a say in is, in the end, what the last line
means that sets the field. -/
theorem last_of_readAll {α : Type} {π : Draft → α} {means : List Char → α → Prop}
    (hheading : ∀ d h, π { d with heading := h } = π d)
    (hset : ∀ {g v d d'}, Changes g v d d' → if g = f then means v (π d') else π d' = π d)
    (hd : d.readAll ls = .ok d') :
    LastSays means (π d) (valuesIn f (placed d.heading ls)) (π d') := by
  induction ls generalizing d with
  | nil =>
    obtain rfl := Except.ok.inj hd
    rfl
  | cons l ls ih =>
    obtain ⟨d₁, hl, hd⟩ := readAll_cons_eq_ok.1 hd
    have hrest := ih hd
    rw [placed_cons, valuesIn_cons, ← heading_of_step hl]
    obtain ⟨hnone, h, rfl⟩ | ⟨g, hg, hv⟩ := step_cases hl
    · rw [hnone, if_neg Bool.false_ne_true]
      rwa [hheading] at hrest
    · have hchange := hset (changes_of_set hv)
      split at hchange
      next hgf =>
        rw [if_pos ((hg f).2 hgf)]
        exact .cons hchange hrest _
      next hgf =>
        rw [if_neg fun hf => hgf ((hg f).1 hf)]
        rwa [hchange] at hrest

/-- What no heading changes, and no field that some line sets, is as it was. -/
theorem keeps_of_readAll {P : Draft → Prop} (hheading : ∀ {d} h, P d → P { d with heading := h })
    (hset : ∀ {g v d₁ d₂}, valuesIn g (placed d.heading ls) ≠ [] → Changes g v d₁ d₂ →
      P d₁ → P d₂)
    (hd : d.readAll ls = .ok d') (hP : P d) : P d' := by
  induction ls generalizing d with
  | nil =>
    obtain rfl := Except.ok.inj hd
    exact hP
  | cons l ls ih =>
    obtain ⟨d₁, hl, hd⟩ := readAll_cons_eq_ok.1 hd
    simp only [placed_cons, valuesIn_cons, ← heading_of_step hl] at hset
    refine ih (fun hg => hset ?_) hd ?_
    · split
      · simp
      · exact hg
    · obtain ⟨-, h, rfl⟩ | ⟨g, hg, hv⟩ := step_cases hl
      · exact hheading h hP
      · refine hset ?_ (changes_of_set hv) hP
        rw [if_pos ((hg g).2 rfl)]
        simp

/-! ## Whole descriptions -/

/-- What a field that holds a text is in the end. -/
def finalText (ls : List (List Char)) (f : Field) (default : String) : String :=
  ((values ls f).getLast?.map unquote).getD default

/-- Each field is what the last line says that sets it, or as on Darwin if none does. -/
structure Described (ls : List (List Char)) (t : Target) : Prop where
  name : t.name = finalText ls .name darwin.name
  displayName : t.displayName = finalText ls .displayName darwin.displayName
  architecture : LastSays (fun v a => architecture? (unquote v) = some a) darwin.architecture
    (values ls .architecture) t.architecture
  symbolPrefix : t.symbolPrefix = finalText ls .symbolPrefix darwin.symbolPrefix
  entryPoint : t.entryPoint = finalText ls .entryPoint darwin.entryPoint
  argumentRegisters : LastSays Spells darwin.argumentRegisters (values ls .argumentRegisters)
    t.argumentRegisters

/-- The lines make up a description. -/
structure Acceptable (ls : List (List Char)) : Prop where
  plain : ∀ x ∈ placed "" ls, isPlain x.2 = true →
    '=' ∈ x.2 ∧ ∃ f : Field, x.1 = f.heading ∧ keyOf x.2 = f.key
  architecture : ∀ v ∈ values ls .architecture, unquote v = "arm64" ∨ unquote v = "aarch64"
  argumentRegisters : ∀ v ∈ values ls .argumentRegisters, ∃ n, Spells v n
  name : finalText ls .name darwin.name ≠ ""
  entryPoint : finalText ls .entryPoint darwin.entryPoint ≠ ""

theorem LastSays.eq_getD {vs : List (List Char)} {default a : String}
    (hvs : LastSays (fun v a => unquote v = a) default vs a) :
    a = (vs.getLast?.map unquote).getD default := by
  unfold LastSays at hvs
  cases hlast : vs.getLast? with
  | none => simpa [hlast] using hvs
  | some v => simpa [hlast, eq_comm] using hvs

/-- A part of the target that one field decides on. -/
theorem last_of_description {α : Type} {π : Target → α} {means : List Char → α → Prop}
    (hset : ∀ {g v d d'}, Changes g v d d' →
      if g = f then means v (π d'.target) else π d'.target = π d.target)
    (hd : Draft.readAll {} ls = .ok d) : LastSays means (π darwin) (values ls f) (π d.target) :=
  last_of_readAll (π := fun d => π d.target) (fun _ _ => rfl) hset hd

theorem described_of_readAll (hd : Draft.readAll {} ls = .ok d) : Described ls d.target where
  name := (last_of_description Changes.name hd).eq_getD
  displayName := (last_of_description Changes.displayName hd).eq_getD
  architecture := last_of_description Changes.architecture hd
  symbolPrefix := (last_of_description Changes.symbolPrefix hd).eq_getD
  entryPoint := (last_of_description Changes.entryPoint hd).eq_getD
  argumentRegisters := last_of_description Changes.argumentRegisters hd

theorem ofDescription_eq_ok {text : String} {t : Target} : ofDescription text = .ok t ↔
    ∃ d, Draft.readAll {} (lines text) = .ok d ∧ d.target.name ≠ "" ∧ d.target.entryPoint ≠ "" ∧
      t = { d.target with builtins := d.builtins.getD d.target.builtins } := by
  refine except_bind_eq_ok.trans (exists_congr fun d => and_congr_right fun _ => ?_)
  unfold Draft.finish
  split
  next hname => simp [hname]
  next hname =>
    split
    next hentry => simp [hentry]
    next hentry => simp [hname, hentry, eq_comm]

theorem described_of_ofDescription {text : String} {t : Target} (ht : ofDescription text = .ok t) :
    Described (lines text) t := by
  obtain ⟨d, hd, -, -, rfl⟩ := ofDescription_eq_ok.1 ht
  exact { described_of_readAll hd with }

/-- Lines that make up a description can be read one by one. -/
theorem Acceptable.legible (hls : Acceptable ls) (hx : x ∈ placed "" ls) : Legible x := by
  intro hplain
  obtain ⟨heq, f, hh, hk⟩ := hls.plain x hx hplain
  have hvalue : valueOf x.2 ∈ values ls f :=
    mem_valuesIn.2 ⟨x, hx, sets_iff.2 ⟨hplain, heq, hh, hk⟩, rfl⟩
  refine ⟨heq, f, hh, hk, ?_⟩
  cases f with
  | architecture => exact hls.architecture _ hvalue
  | argumentRegisters => exact hls.argumentRegisters _ hvalue
  | name | displayName | symbolPrefix | entryPoint | builtin => trivial

/-- What a field of a legible description is set to is a value that it admits. -/
theorem admits_of_legible (hls : ∀ x ∈ placed "" ls, Legible x) (hv : v ∈ values ls f) :
    f.Admits v := by
  obtain ⟨x, hx, hset, rfl⟩ := mem_valuesIn.1 hv
  obtain ⟨hplain, -, hf⟩ := sets_iff.1 hset
  obtain ⟨-, g, hh, hk, hadmits⟩ := hls x hx hplain
  rwa [Field.eq_of_heading_key ⟨hh, hk⟩ hf] at hadmits

theorem exists_ofDescription_iff {text : String} :
    (∃ t, ofDescription text = .ok t) ↔ Acceptable (lines text) := by
  constructor
  · rintro ⟨t, ht⟩
    obtain ⟨d, hd, hname, hentry, -⟩ := ofDescription_eq_ok.1 ht
    have hlegible := exists_readAll_iff.1 ⟨d, hd⟩
    have hdescribed := described_of_readAll hd
    exact {
      plain := fun x hx hplain =>
        have ⟨heq, f, hh, hk, _⟩ := hlegible x hx hplain
        ⟨heq, f, hh, hk⟩
      architecture := fun v hv => admits_of_legible hlegible hv
      argumentRegisters := fun v hv => admits_of_legible hlegible hv
      name := hdescribed.name ▸ hname
      entryPoint := hdescribed.entryPoint ▸ hentry }
  · intro hls
    have hread : ∃ d, Draft.readAll {} (lines text) = .ok d :=
      exists_readAll_iff.2 fun x hx => hls.legible hx
    obtain ⟨d, hd⟩ := hread
    have hdescribed := described_of_readAll hd
    have hname : d.target.name ≠ "" := hdescribed.name ▸ hls.name
    have hentry : d.target.entryPoint ≠ "" := hdescribed.entryPoint ▸ hls.entryPoint
    exact ⟨_, ofDescription_eq_ok.2 ⟨d, hd, hname, hentry, rfl⟩⟩

/-- The table is the one on Darwin where no line sets a builtin, and otherwise has what the lines
set and nothing else. -/
theorem find?_of_ofDescription {text : String} {t : Target} (ht : ofDescription text = .ok t) :
    ((∀ n, values (lines text) (.builtin n) = []) → t.builtins = darwin.builtins) ∧
      ((∃ n, values (lines text) (.builtin n) ≠ []) → ∀ n,
        t.builtins.find? n = (values (lines text) (.builtin n)).getLast?.map unquote) := by
  obtain ⟨d, hd, -, -, rfl⟩ := ofDescription_eq_ok.1 ht
  have hfind : ∀ n, (d.builtins.getD {}).find? n =
      (values (lines text) (.builtin n)).getLast?.map unquote := by
    intro n
    have hlast : LastSays (fun v o => o = some (unquote v)) none
        (values (lines text) (.builtin n)) ((d.builtins.getD {}).find? n) :=
      last_of_readAll (d := {}) (f := .builtin n) (π := fun d => (d.builtins.getD {}).find? n)
        (fun _ _ => rfl) (fun hset => hset.builtin n) hd
    unfold LastSays at hlast
    split at hlast <;> simp [*]
  constructor
  · intro hnone
    have hunset : d.builtins = none := by
      refine keeps_of_readAll (P := fun d => d.builtins = none) (fun _ h => h) ?_ hd rfl
      intro g v d₁ d₂ hg hchange hd₁
      rw [hchange.unset ?_, hd₁]
      rintro n rfl
      exact hg (hnone n)
    have hstanding : d.target.builtins = darwin.builtins :=
      keeps_of_readAll (P := fun d => d.target.builtins = darwin.builtins) (fun _ h => h)
        (fun _ hchange h => hchange.standing.trans h) hd rfl
    rw [hunset]
    exact hstanding
  · rintro ⟨m, hm⟩ n
    cases hb : d.builtins with
    | some b => simpa [hb] using hfind n
    | none =>
      have hm' := hfind m
      rw [hb, List.getLast?_eq_some_getLast hm] at hm'
      cases hm'

/-- Descriptions mean what their lines say. A text is accepted just when its lines make up a
description, and each field then is what the last line says that sets it. -/
theorem description_read_by_lines (text : String) :
    ((∃ t, ofDescription text = .ok t) ↔ Acceptable (lines text)) ∧
      ∀ t, ofDescription text = .ok t → Described (lines text) t :=
  ⟨exists_ofDescription_iff, fun _ => described_of_ofDescription⟩

/-- A description that comes back to a heading and sets a field again. -/
def resettingDescription : String :=
  "[target]\nname = \"a\"\n[abi]\r\nargument_registers = +2\n[ target ]\n# b\nname = b = \"c\"\n"

theorem description_read_by_lines_resetting :
    ∃ t, ofDescription resettingDescription = .ok t ∧ t.name = "b = \"c" ∧
      t.argumentRegisters = 2 ∧ Acceptable (lines resettingDescription) ∧
      Described (lines resettingDescription) t := by
  have heval : (ofDescription resettingDescription).toOption.map
      (fun t => (t.name, t.argumentRegisters)) = some ("b = \"c", 2) := by
    decide +kernel
  obtain ⟨t, ht, hfields⟩ := exists_ok_of_toOption heval
  rw [Prod.mk.injEq] at hfields
  obtain ⟨haccept, hdescribed⟩ := description_read_by_lines resettingDescription
  exact ⟨t, ht, hfields.1, hfields.2, haccept.1 ⟨t, ht⟩, hdescribed t ht⟩

/-- Builtins come from the lines that set them. If there are such lines, the table has exactly the
names that they set, each with what the last line says; if there are none, and so also if no heading
is that of the builtins, it is the table on Darwin. -/
theorem builtins_read_by_lines {text : String} {t : Target} (ht : ofDescription text = .ok t) :
    ((∃ n, values (lines text) (.builtin n) ≠ []) → ∀ n s, (n, s) ∈ t.builtins.entries ↔
      ∃ v, (values (lines text) (.builtin n)).getLast? = some v ∧ unquote v = s) ∧
    ((∀ n, values (lines text) (.builtin n) = []) → t.builtins = darwin.builtins) ∧
    ((∀ l ∈ lines text, isHeading l = true → headingOf l ≠ "builtins") →
      t.builtins = darwin.builtins) := by
  obtain ⟨hstanding, hfind⟩ := find?_of_ofDescription ht
  refine ⟨fun hsome n s => ?_, hstanding, fun hheadings => hstanding fun n => ?_⟩
  · rw [Builtins.mem_entries_iff, hfind hsome, Option.map_eq_some_iff]
  · refine List.eq_nil_iff_forall_not_mem.2 fun v hv => ?_
    obtain ⟨x, hx, hset, -⟩ := mem_valuesIn.1 hv
    obtain ⟨-, -, hheading, -⟩ := sets_iff.1 hset
    rcases heading_of_mem_placed hx with hnone | ⟨l, hl, hl', heq⟩
    · exact absurd (hheading.symm.trans hnone) (by simp [Field.heading])
    · exact hheadings l hl hl' (heq.trans hheading)

/-- A description with two parts for builtins. -/
def reopenedTable : String :=
  "[builtins]\nprint = \"a\"\n[abi]\n\n[ builtins ]\nprint = b\n= \"c\""

theorem builtins_read_by_lines_reopened :
    ∃ t, ofDescription reopenedTable = .ok t ∧
      t.builtins.entries = [("", "c"), ("print", "b")] ∧
      ∀ n s, (n, s) ∈ t.builtins.entries ↔
        ∃ v, (values (lines reopenedTable) (.builtin n)).getLast? = some v ∧ unquote v = s := by
  have heval : (ofDescription reopenedTable).toOption.map (·.builtins.entries) =
      some [("", "c"), ("print", "b")] := by
    decide +kernel
  obtain ⟨t, ht, hentries⟩ := exists_ok_of_toOption heval
  have hset : values (lines reopenedTable) (.builtin "print") ≠ [] := by decide +kernel
  exact ⟨t, ht, hentries, (builtins_read_by_lines ht).1 ⟨"print", hset⟩⟩

/-- A heading with nothing set under it does not begin a new table. -/
theorem bare_heading_keeps_builtins :
    ∃ t, ofDescription "[builtins]\n" = .ok t ∧
      (∃ l ∈ lines "[builtins]\n", isHeading l = true ∧ headingOf l = "builtins") ∧
      values (lines "[builtins]\n") (.builtin "print") = [] ∧
      ("print", "navi_print_int") ∈ t.builtins.entries := by
  have heval : (ofDescription "[builtins]\n").toOption.map (·.builtins.entries) =
      some [("print", "navi_print_int")] := by
    decide +kernel
  obtain ⟨t, ht, hentries⟩ := exists_ok_of_toOption heval
  exact ⟨t, ht, by decide +kernel, by decide +kernel, by simp [hentries]⟩

end Target.Description

end Straightline
