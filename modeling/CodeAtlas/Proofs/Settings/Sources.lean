import CodeAtlas.Proofs.Settings.Load
import CodeAtlas.Settings.Format
import Mathlib.Data.List.Forall2
/-
  Which source the configuration of a project comes from.

  There are four sources, the three configuration files and the section of the
  package file. A source that is tried holds a configuration, and then it is
  taken, or it is passed over; in the second case one warning is made if there
  was something to read, and none otherwise (`PassedOver`).

  `exists_tells` and `readPackage_cases` say this of the two kinds of
  source. By induction over the files, a run that gives an answer passes over the
  sources up to the first usable one, takes that, and has seen nothing of the
  others (`exists_selection`). What makes values of the texts is any function.
-/

namespace CodeAtlas.Settings

/-- Where a configuration can come from. -/
inductive Source where
  | file (name : String) (format : Format)
  | package
  deriving DecidableEq, Repr

/-- The sources that some files make with the package file behind them. -/
def ranked (files : List (String × Format)) : List Source :=
  files.map (fun f => .file f.1 f.2) ++ [.package]

/-- The sources of a project, the one that goes before all others first. -/
def order : List Source :=
  [.file ".fnmaprc" .json, .file ".fnmaprc.json" .json, .file ".fnmaprc.toml" .toml, .package]

theorem ranked_sources : ranked sources = order := rfl

/-- The section of the package file says this, which is something. -/
def HasSection (d : Disk) (decode : Decoder) (project : Path) (v : Value) : Prop :=
  ∃ text package, HasText d (project.child packageFile) text ∧ decode .json text = .ok package ∧
    package.get? packageSection = some v ∧ v.isSet = true

namespace Source

/-- The file that a source is read from. -/
def path (project : Path) : Source → Path
  | file name _ => project.child name
  | package => project.child packageFile

/-- How a source is named in the answer. -/
def label : Source → String
  | file name _ => name
  | package => packageFile ++ "#" ++ packageSection

/-- The source holds this configuration. -/
def Holds (d : Disk) (decode : Decoder) (project : Path) : Source → Value → Prop
  | file name format, v => Gives d decode project (name, format) v
  | package, v => HasSection d decode project v ∧ check v = .ok v

/-- The source holds a configuration. -/
def Usable (d : Disk) (decode : Decoder) (project : Path) (s : Source) : Prop :=
  ∃ v, s.Holds d decode project v

/-- The source is there with something to read: a file, readable or not, that does not
just hold null, or a section that says something. -/
def Present (d : Disk) (decode : Decoder) (project : Path) : Source → Prop
  | file name format =>
    (∃ file, d.file? (project.child name) = .ok (some file)) ∧
      ¬ ∃ text, HasText d (project.child name) text ∧ isBlankText text = false ∧
        decode format text = .ok .null
  | package => ∃ v, HasSection d decode project v

end Source

/-- The warning that belongs to a source that cannot be used. -/
inductive Warning (d : Disk) (decode : Decoder) (project : Path) : Source → String → Prop
  | unreadable {name format t} (h : Unreadable d (project.child name) t) :
      Warning d decode project (.file name format)
        (explain ("Failed to read config file: " ++ name) (some (project.child name).toString)
          none none (some (t.message (project.child name).toString)))
  | blank {name format text} (htext : HasText d (project.child name) text)
      (hblank : isBlankText text = true) :
      Warning d decode project (.file name format)
        s!"Config file is empty: {name}. Using default config"
  | malformed {name format text} (htext : HasText d (project.child name) text)
      (hblank : isBlankText text = false) (hread : decode format text = .error .malformed) :
      Warning d decode project (.file name format)
        (explain ("Failed to parse config file: " ++ name) (some (project.child name).toString)
          none none (some "Check the file syntax (...)"))
  | shape {name format text raw e} (htext : HasText d (project.child name) text)
      (hblank : isBlankText text = false) (hread : decode format text = .ok raw)
      (hcheck : check raw = .error e) :
      Warning d decode project (.file name format) s!"Invalid config in {name}: {e.message}"
  | package {v e} (hsection : HasSection d decode project v) (hcheck : check v = .error e) :
      Warning d decode project .package s!"Invalid fnmap config in package.json: {e.message}"

/-- A source is passed over, and this is said about it. -/
structure PassedOver (d : Disk) (decode : Decoder) (project : Path) (s : Source)
    (said : Option String) : Prop where
  unusable : ¬ s.Usable d decode project
  said_iff : said.isSome = true ↔ s.Present d decode project
  warning : ∀ w, said = some w → Warning d decode project s w

/-- The sources that were tried: those passed over, with what was said about each, and
the first usable one, if there is one. -/
structure Selection (d : Disk) (decode : Decoder) (project : Path) (l earlier : List Source)
    (said : List (Option String)) (found : Option (Source × Value)) : Prop where
  passedOver : List.Forall₂ (PassedOver d decode project) earlier said
  holds : ∀ s v, found = some (s, v) → s.Holds d decode project v
  first : ∃ later, l = earlier ++ (found.map Prod.fst).toList ++ later ∧ (found = none → later = [])

/-- The report of a run that tried these sources. -/
def reportOf (said : List (Option String)) (found : Option (Source × Value)) :
    Report (Option Loaded) :=
  ⟨(said.filterMap id).map .logged, .ok (found.map fun f => ⟨f.2, f.1.label⟩)⟩

variable {d : Disk} {decode : Decoder} {project path : Path} {name text : String} {format : Format}

/-! ## One file -/

theorem HasText.eq {text' : String} (h : HasText d path text) (h' : HasText d path text') :
    text = text' := by
  obtain ⟨content, hfile, htext⟩ := h
  obtain ⟨content', hfile', htext'⟩ := h'
  rw [hfile] at hfile'
  cases hfile'
  rw [htext] at htext'
  exact Except.ok.inj htext'

/-- A file with a text that gives no configuration is passed over. -/
theorem passedOver_file {said : Option String} (htext : HasText d (project.child name) text)
    (hno : isBlankText text = false → ∀ v, decode format text = .ok v → check v ≠ .ok v)
    (hsaid : said.isSome = true ↔ ¬ (isBlankText text = false ∧ decode format text = .ok .null))
    (hwarning : ∀ w, said = some w → Warning d decode project (.file name format) w) :
    PassedOver d decode project (.file name format) said where
  unusable := by
    rintro ⟨v, text', htext', hblank, hread, hcheck⟩
    obtain rfl := htext.eq htext'
    exact hno hblank v hread hcheck
  said_iff := by
    rw [hsaid]
    constructor
    · intro hnull
      refine ⟨htext.elim fun content h => ⟨.ok content, h.1⟩, ?_⟩
      rintro ⟨text', htext', h⟩
      obtain rfl := htext.eq htext'
      exact hnull h
    · rintro ⟨-, hnull⟩ h
      exact hnull ⟨text, htext, h⟩
  warning := hwarning

theorem passedOver_of_none (h : d.file? (project.child name) = .ok none) :
    PassedOver d decode project (.file name format) none := by
  have hnone : ∀ file, d.file? (project.child name) ≠ .ok (some file) := by
    intro file hfile
    rw [h] at hfile
    cases hfile
  refine ⟨?_, iff_of_false (by simp) ?_, fun w hw => (nomatch hw)⟩
  · rintro ⟨v, text, ⟨content, hcontent, -⟩, -⟩
    exact hnone _ hcontent
  · rintro ⟨⟨file, hfile⟩, -⟩
    exact hnone file hfile

theorem Unreadable.not_hasText {t : Trouble} (h : Unreadable d path t) (text : String) :
    ¬ HasText d path text := by
  rintro ⟨content, hfile, -⟩
  rw [h] at hfile
  cases hfile

/-- A file that cannot be read is passed over with a warning. -/
theorem passedOver_of_unreadable {t : Trouble} (h : Unreadable d (project.child name) t) :
    PassedOver d decode project (.file name format)
      (some (unreadableText (project.child name).toString name t)) := by
  refine ⟨?_, iff_of_true rfl ⟨⟨_, h⟩, ?_⟩, ?_⟩
  · rintro ⟨v, text, htext, -⟩
    exact h.not_hasText text htext
  · rintro ⟨text, htext, -⟩
    exact h.not_hasText text htext
  · intro w hw
    cases hw
    exact .unreadable h

/-- What is read of a file is true of it. -/
def Tells (d : Disk) (decode : Decoder) (project : Path) (name : String) (format : Format) :
    Reading → Prop
  | .config v => Gives d decode project (name, format) v
  | .absent => PassedOver d decode project (.file name format) none
  | .unusable w => PassedOver d decode project (.file name format) (some w)

theorem tells_readValue {raw : Value} (htext : HasText d (project.child name) text)
    (hblank : isBlankText text = false) (hread : decode format text = .ok raw) :
    Tells d decode project name format (readValue name raw) := by
  unfold readValue
  split
  · apply passedOver_file htext
    · intro _ v hv hcheck
      rw [hread] at hv
      cases hv
      cases hcheck
    · simp [hblank, hread]
    · exact fun w hw => (nomatch hw)
  next hnull =>
  cases hcheck : check raw with
  | ok v =>
    obtain rfl := eq_of_check hcheck
    exact ⟨text, htext, hblank, hread, hcheck⟩
  | error e =>
    apply passedOver_file htext
    · intro _ v hv hok
      rw [hread] at hv
      cases hv
      rw [hcheck] at hok
      cases hok
    · simpa [hblank, hread] using hnull
    · intro w hw
      cases hw
      exact .shape htext hblank hread hcheck

/-- A file that is tried gives its configuration or is passed over. -/
theorem exists_tells (h : Answers (readSettings d decode project name format).result) :
    ∃ reading, readSettings d decode project name format = pure reading ∧
      Tells d decode project name format reading := by
  have hpasses := answers_readSettings.mp h
  rcases readFile?_cases (Report.answers_of_bind h) with hfile | ⟨t, hfile⟩ | ⟨text, htext⟩
  · refine ⟨.absent, ?_, passedOver_of_none hfile⟩
    rw [readSettings, readFile?_of_none hfile]
    rfl
  · refine ⟨.unusable _, ?_, passedOver_of_unreadable hfile⟩
    rw [readSettings, readFile?_of_unreadable hfile]
    rfl
  rw [readSettings, readFile?_of_hasText htext, pure_bind]
  dsimp only
  rw [readConfig]
  by_cases hblank : isBlankText text = true
  · rw [if_pos hblank]
    refine ⟨_, rfl, passedOver_file htext (by simp [hblank]) (by simp [hblank]) ?_⟩
    intro w hw
    cases hw
    exact .blank htext hblank
  · rw [if_neg hblank]
    rw [Bool.not_eq_true] at hblank
    cases hread : decode format text with
    | ok raw => exact ⟨_, rfl, tells_readValue htext hblank hread⟩
    | error e =>
      -- a fault that is none of the format would have ended the run
      have hlimits := (hpasses.fits text htext).resolve_left (by simp [hblank])
      obtain rfl := hlimits e hread
      refine ⟨_, rfl, passedOver_file htext (by simp [hread]) (by simp [hread]) ?_⟩
      intro w hw
      cases hw
      exact .malformed htext hblank hread

/-! ## The package file -/

/-- A package file without a section that says something is passed over quietly. -/
theorem passedOver_package (h : ∀ v, ¬ HasSection d decode project v) :
    PassedOver d decode project .package none := by
  refine ⟨?_, iff_of_false (by simp) ?_, fun w hw => (nomatch hw)⟩
  · rintro ⟨v, hv, -⟩
    exact h v hv
  · rintro ⟨v, hv⟩
    exact h v hv

theorem hasSection_iff {v : Value} (htext : HasText d (project.child packageFile) text) :
    HasSection d decode project v ↔
      ∃ package, decode .json text = .ok package ∧
        (package.get? packageSection).filter Value.isSet = some v := by
  simp only [Option.filter_eq_some_iff]
  constructor
  · rintro ⟨text', package, htext', hread, hget⟩
    obtain rfl := htext.eq htext'
    exact ⟨package, hread, hget⟩
  · rintro ⟨package, hread, hget⟩
    exact ⟨text, package, htext, hread, hget⟩

/-- A section with the wrong shape is passed over with a warning. -/
theorem passedOver_section {v : Value} {e : ShapeError}
    (hsection : HasSection d decode project v)
    (hother : ∀ v', HasSection d decode project v' → v' = v)
    (hcheck : check v = .error e) :
    PassedOver d decode project .package
      (some s!"Invalid fnmap config in package.json: {e.message}") := by
  refine ⟨?_, iff_of_true rfl ⟨v, hsection⟩, ?_⟩
  · rintro ⟨v', hv', hok⟩
    rw [hother v' hv', hcheck] at hok
    cases hok
  · intro w hw
    cases hw
    exact .package hsection hcheck

/-- The package file that is tried gives its configuration or is passed over. -/
theorem readPackage_cases (h : Answers (readPackage d decode project).result) :
    (∃ v, Source.package.Holds d decode project v ∧
        readPackage d decode project = reportOf [] (some (.package, v))) ∨
      ∃ said, PassedOver d decode project .package said ∧
        readPackage d decode project = reportOf [said] none := by
  have hpasses := answers_readPackage.mp h
  rcases readFile?_cases (Report.answers_of_bind h) with hfile | ⟨t, hfile⟩ | ⟨text, htext⟩
  · refine Or.inr ⟨none, passedOver_package ?_, ?_⟩
    · rintro v ⟨text, package, ⟨content, hcontent, -⟩, -⟩
      rw [hfile] at hcontent
      cases hcontent
    · rw [readPackage, readFile?_of_none hfile]
      rfl
  · refine Or.inr ⟨none, passedOver_package ?_, ?_⟩
    · rintro v ⟨text, package, htext, -⟩
      exact hfile.not_hasText text htext
    · rw [readPackage, readFile?_of_unreadable hfile]
      rfl
  have hiff (v : Value) : HasSection d decode project v ↔
      ∃ package, decode .json text = .ok package ∧
        (package.get? packageSection).filter Value.isSet = some v := hasSection_iff htext
  rw [readPackage, readFile?_of_hasText htext, pure_bind]
  dsimp only
  rw [packageConfig?]
  cases hread : decode .json text with
  | error e =>
    obtain rfl := hpasses.fits text htext e hread
    refine Or.inr ⟨none, passedOver_package fun v hv => ?_, rfl⟩
    simp [hiff, hread] at hv
  | ok package =>
    have hsection (v : Value) : HasSection d decode project v ↔
        (package.get? packageSection).filter Value.isSet = some v := by
      simp [hiff, hread]
    dsimp only
    rw [pure_bind]
    cases hget : (package.get? packageSection).filter Value.isSet with
    | none =>
      refine Or.inr ⟨none, passedOver_package fun v hv => ?_, rfl⟩
      simp [hsection, hget] at hv
    | some v =>
      have hv := (hsection v).mpr hget
      dsimp only
      cases hcheck : check v with
      | ok v' =>
        obtain rfl := eq_of_check hcheck
        exact Or.inl ⟨v, ⟨hv, hcheck⟩, rfl⟩
      | error e =>
        refine Or.inr ⟨_, passedOver_section hv ?_ hcheck, rfl⟩
        intro v' hv'
        have hget' := (hsection v').mp hv'
        rw [hget] at hget'
        exact (Option.some.inj hget').symm

/-! ## The search -/

/-- The run over some files depends on nothing but these sources. -/
def DependsOn (d : Disk) (decode : Decoder) (project : Path) (files : List (String × Format))
    (l : List Source) : Prop :=
  ∀ d' : Disk, (∀ s ∈ l, d'.file? (s.path project) = d.file? (s.path project)) →
    loadFrom d' decode project files = loadFrom d decode project files

/-- What is said of a file that is passed over. -/
def Reading.said : Reading → Option String
  | .unusable w => some w
  | _ => none

variable {files : List (String × Format)} {earlier l : List Source} {said : List (Option String)}
  {found : Option (Source × Value)}

theorem readFile?_congr {d' : Disk} (h : d'.file? path = d.file? path) :
    readFile? d' path = readFile? d path := by
  rw [readFile?, readFile?, h]

theorem readSettings_congr {d' : Disk}
    (h : d'.file? (project.child name) = d.file? (project.child name)) :
    readSettings d' decode project name format = readSettings d decode project name format := by
  rw [readSettings, readSettings, readFile?_congr h]

theorem dependsOn_package : DependsOn d decode project [] [.package] := by
  intro d' hd
  have hfile : d'.file? (project.child packageFile) = d.file? (project.child packageFile) :=
    hd .package List.mem_cons_self
  rw [loadFrom, loadFrom, readPackage, readPackage, readFile?_congr hfile]

theorem loadFrom_of_config {v : Value}
    (h : readSettings d decode project name format = pure (.config v)) :
    loadFrom d decode project ((name, format) :: files)
      = reportOf [] (some (.file name format, v)) := by
  rw [loadFrom, h, pure_bind]
  rfl

theorem loadFrom_of_passedOver {reading : Reading}
    (h : readSettings d decode project name format = pure reading)
    (hno : ∀ v, reading ≠ .config v) :
    loadFrom d decode project ((name, format) :: files)
      = (Report.note (reading.said.toList.map .logged) >>= fun _ =>
          loadFrom d decode project files) := by
  rw [loadFrom, h, pure_bind]
  cases reading with
  | config v => exact absurd rfl (hno v)
  | absent => exact (pure_bind () fun _ => loadFrom d decode project files).symm
  | unusable w => rfl

theorem note_reportOf (w : Option String) :
    (Report.note (w.toList.map .logged) >>= fun _ => reportOf said found)
      = reportOf (w :: said) found := by
  cases w <;> rfl

theorem dependsOn_of_config {v : Value}
    (h : readSettings d decode project name format = pure (.config v)) :
    DependsOn d decode project ((name, format) :: files) [.file name format] := by
  intro d' hd
  have hread : readSettings d' decode project name format
      = readSettings d decode project name format :=
    readSettings_congr (hd (.file name format) List.mem_cons_self)
  rw [loadFrom_of_config h, loadFrom_of_config (hread.trans h)]

theorem DependsOn.cons {reading : Reading}
    (h : readSettings d decode project name format = pure reading) (hno : ∀ v, reading ≠ .config v)
    (hl : DependsOn d decode project files l) :
    DependsOn d decode project ((name, format) :: files) (.file name format :: l) := by
  intro d' hd
  have hread : readSettings d' decode project name format
      = readSettings d decode project name format :=
    readSettings_congr (hd (.file name format) List.mem_cons_self)
  have hrest := hl d' fun s hs => hd s (List.mem_cons_of_mem _ hs)
  rw [loadFrom_of_passedOver h hno, loadFrom_of_passedOver (hread.trans h) hno, hrest]

/-- The sources after one more that is passed over. -/
theorem Selection.cons {s : Source} {w : Option String} (hs : PassedOver d decode project s w)
    (h : Selection d decode project l earlier said found) :
    Selection d decode project (s :: l) (s :: earlier) (w :: said) found where
  passedOver := .cons hs h.passedOver
  holds := h.holds
  first := by
    obtain ⟨later, hl, hlater⟩ := h.first
    exact ⟨later, by rw [hl]; rfl, hlater⟩

/-- The first source is usable. -/
theorem selection_head {s : Source} {v : Value} (h : s.Holds d decode project v) :
    Selection d decode project (s :: l) [] [] (some (s, v)) where
  passedOver := .nil
  holds := by
    intro s' v' heq
    cases heq
    exact h
  first := ⟨l, rfl, fun heq => (nomatch heq)⟩

/-- No source is left. -/
theorem selection_nil : Selection d decode project [] [] [] none where
  passedOver := .nil
  holds := fun _ _ heq => (nomatch heq)
  first := ⟨[], rfl, fun _ => rfl⟩

/-- A run that gives an answer passes over the sources before the first usable one,
takes that one, and depends on no other. -/
theorem exists_selection (h : Answers (loadFrom d decode project files).result) :
    ∃ earlier said found, Selection d decode project (ranked files) earlier said found ∧
      loadFrom d decode project files = reportOf said found ∧
      DependsOn d decode project files (earlier ++ (found.map Prod.fst).toList) := by
  induction files with
  | nil =>
    rcases readPackage_cases h with ⟨v, hv, hrun⟩ | ⟨w, hw, hrun⟩
    · exact ⟨[], [], some (.package, v), selection_head hv, hrun, dependsOn_package⟩
    · exact ⟨[.package], [w], none, selection_nil.cons hw, hrun, dependsOn_package⟩
  | cons first files ih =>
    obtain ⟨name, format⟩ := first
    obtain ⟨reading, hreading, htells⟩ := exists_tells (Report.answers_of_bind h)
    by_cases hconfig : ∃ v, reading = .config v
    · obtain ⟨v, rfl⟩ := hconfig
      exact ⟨[], [], some (.file name format, v), selection_head htells,
        loadFrom_of_config hreading, dependsOn_of_config hreading⟩
    · rw [not_exists] at hconfig
      have hpassed : PassedOver d decode project (.file name format) reading.said := by
        cases reading with
        | config v => exact absurd rfl (hconfig v)
        | absent => exact htells
        | unusable w => exact htells
      rw [loadFrom_of_passedOver hreading hconfig, Report.result_bind] at h
      obtain ⟨earlier, said, found, hselection, hrun, hdepends⟩ := ih h
      refine ⟨.file name format :: earlier, reading.said :: said, found, hselection.cons hpassed,
        ?_, hdepends.cons hreading hconfig⟩
      rw [loadFrom_of_passedOver hreading hconfig, hrun, note_reportOf]

/-- The configuration of a project is that of its first usable source. A source before it
is warned about once if there was something to read in it, and no source after it has a
part in the answer. -/
theorem selection_load (h : Answers (load d decode project).result) :
    ∃ earlier said found, Selection d decode project order earlier said found ∧
      load d decode project = reportOf said found ∧
      ∀ d' : Disk, (∀ s ∈ earlier ++ (found.map Prod.fst).toList,
          d'.file? (s.path project) = d.file? (s.path project)) →
        load d' decode project = load d decode project := by
  obtain ⟨earlier, said, found, hselection, hrun, hdepends⟩ := exists_selection h
  rw [ranked_sources] at hselection
  exact ⟨earlier, said, found, hselection, hrun, hdepends⟩

/-- A project with a file that holds null, one that cannot be read, one that can be used,
and a package file that is no text. -/
def mixedSources : Disk :=
  ⟨[], ⟨[([".fnmaprc"], .file (.text "null")), ([".fnmaprc.json"], .file (.text "\x7b\x7d")),
    ([".fnmaprc.toml"], .file (.text "enable = true")),
    (["package.json"], .file (.bytes [0xff]))]⟩, { hidden := [[".fnmaprc.json"]] }⟩

theorem selection_load_mixedSources :
    (load mixedSources Format.read (.ofPlace [])).notes
        = [.logged (unreadableText "/.fnmaprc.json" ".fnmaprc.json" .notPermitted)] ∧
      (load mixedSources Format.read (.ofPlace [])).result.toOption.map (Option.map Loaded.source)
        = some (some ".fnmaprc.toml") ∧
      ∃ earlier said found,
        Selection mixedSources Format.read (.ofPlace []) order earlier said found ∧
        load mixedSources Format.read (.ofPlace []) = reportOf said found ∧
        ∀ d' : Disk, (∀ s ∈ earlier ++ (found.map Prod.fst).toList,
            d'.file? (s.path (.ofPlace [])) = mixedSources.file? (s.path (.ofPlace []))) →
          load d' Format.read (.ofPlace []) = load mixedSources Format.read (.ofPlace []) := by
  have hsource : (load mixedSources Format.read (.ofPlace [])).result.toOption.map
      (Option.map Loaded.source) = some (some ".fnmaprc.toml") := by decide +kernel
  have hanswers : Answers (load mixedSources Format.read (.ofPlace [])).result := by
    cases hresult : (load mixedSources Format.read (.ofPlace [])).result with
    | error c =>
      rw [hresult] at hsource
      cases hsource
    | ok r => exact ⟨r, rfl⟩
  exact ⟨by decide +kernel, hsource, selection_load hanswers⟩

end CodeAtlas.Settings
