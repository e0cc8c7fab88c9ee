import CodeAtlas.Proofs.Report
import CodeAtlas.Settings.Load
/-
  What becomes of the configuration of a project, whatever its files hold.

  The files are tried in turn, so a file matters only as long as none before it is
  usable (`Tried`). `answers_loadFrom_iff` says when loading gives an answer: when
  each file that is tried can be asked for, is text if it can be read at all, and
  has only such faults as its format knows (`Passes`). A file that cannot be read
  and a fault of the format are warned about, and the next file is tried. All this
  holds whatever makes values of the texts.

  A configuration that is loaded has the right outer shape (`Shaped`), so it gives
  settings. Their directories and names are there exactly when every pattern is a
  text and no name is a container, which the shape does not say (`Serves`).

  `loadExact_load` puts the two together, and `bytes_end_loading` shows that either
  can go wrong.
-/

namespace CodeAtlas.Settings

open CodeAtlas.Text

variable {d : Disk} {decode : Decoder} {project path : Path} {name text : String} {format : Format}

/-! ## Reading a file -/

/-- The path opens a file with this text. -/
def HasText (d : Disk) (path : Path) (text : String) : Prop :=
  ∃ content, d.file? path = .ok (some (.ok content)) ∧ Intake.readText content = .ok text

/-- The path opens a file that cannot be read. -/
def Unreadable (d : Disk) (path : Path) (t : Trouble) : Prop := d.file? path = .ok (some (.error t))

/-- Nothing ends the run while the file of a path is read: the path can be asked
about, and what it opens, if that is a file that can be read, is text of which
`fits` is true. -/
structure Passes (d : Disk) (path : Path) (fits : String → Prop) : Prop where
  asked : ∃ file, d.file? path = .ok file
  text : ∀ content, d.file? path = .ok (some (.ok content)) → ∃ s, content.decode = .ok s
  fits : ∀ text, HasText d path text → fits text

/-- The only fault that the reading finds in the text is one of its format. -/
def WithinLimits (read : String → Except ReadError Value) (text : String) : Prop :=
  ∀ e, read text = .error e → e = .malformed

theorem answers_readText {content : Content} :
    Answers (Intake.readText content) ↔ ∃ s, content.decode = .ok s := by
  unfold Intake.readText
  cases content.decode with
  | error f =>
    constructor
    · rintro ⟨s, h⟩; cases h
    · rintro ⟨s, h⟩; cases h
  | ok s => exact ⟨fun _ => ⟨s, rfl⟩, fun _ => ⟨_, rfl⟩⟩

theorem readFile?_of_none (h : d.file? path = .ok none) : readFile? d path = pure none := by
  rw [readFile?, h]
  rfl

theorem readFile?_of_unreadable {t : Trouble} (h : Unreadable d path t) :
    readFile? d path = pure (some (.error t)) := by
  rw [readFile?, h]
  rfl

theorem readFile?_of_hasText (h : HasText d path text) :
    readFile? d path = pure (some (.ok text)) := by
  obtain ⟨content, hfile, htext⟩ := h
  have hasked : Report.asked (.ok (some (.ok content) : Option (Except Trouble Content)))
      = pure (some (.ok content)) := rfl
  rw [readFile?, hfile, hasked, pure_bind]
  dsimp only
  rw [htext]

/-- What is read of a file when the reading gets through. -/
theorem readFile?_cases (h : Answers (readFile? d path).result) :
    d.file? path = .ok none ∨ (∃ t, Unreadable d path t) ∨ ∃ text, HasText d path text := by
  obtain ⟨r, h⟩ := h
  rw [readFile?, Report.result_bind] at h
  obtain ⟨file, hfile, h⟩ := bind_eq_ok.mp h
  rw [Report.asked_eq_ok] at hfile
  match file with
  | none => exact Or.inl hfile
  | some (.error t) => exact Or.inr (Or.inl ⟨t, hfile⟩)
  | some (.ok content) =>
    dsimp only at h
    cases htext : Intake.readText content with
    | error f => rw [htext] at h; cases h
    | ok text => exact Or.inr (Or.inr ⟨text, content, hfile, htext⟩)

/-- A step that goes on from the text of a file gives an answer exactly when the
file passes, if it always does where there is none or it cannot be read. -/
theorem answers_after_readFile? {α : Type} {go : Option (Except Trouble String) → Report α}
    {fits : String → Prop} (hnone : Answers (go none).result)
    (hunreadable : ∀ t, Answers (go (some (.error t))).result)
    (hsome : ∀ text, Answers (go (some (.ok text))).result ↔ fits text) :
    Answers (readFile? d path >>= go).result ↔ Passes d path fits := by
  constructor
  · intro h
    have hread : Answers (readFile? d path).result := Report.answers_of_bind h
    have hgo : ∀ text, HasText d path text → fits text := by
      intro text htext
      rw [readFile?_of_hasText htext, pure_bind] at h
      exact (hsome text).mp h
    rcases readFile?_cases hread with hfile | ⟨t, hfile⟩ | ⟨text, content, hfile, htext⟩
    · refine ⟨⟨_, hfile⟩, fun content hcontent => ?_, hgo⟩
      rw [hfile] at hcontent
      cases hcontent
    · refine ⟨⟨_, hfile⟩, fun content hcontent => ?_, hgo⟩
      rw [hfile] at hcontent
      cases hcontent
    · refine ⟨⟨_, hfile⟩, fun content' hcontent => ?_, hgo⟩
      rw [hfile] at hcontent
      cases hcontent
      exact answers_readText.mp ⟨text, htext⟩
  · intro h
    obtain ⟨file, hfile⟩ := h.asked
    match file with
    | none =>
      rw [readFile?_of_none hfile, pure_bind]
      exact hnone
    | some (.error t) =>
      rw [readFile?_of_unreadable hfile, pure_bind]
      exact hunreadable t
    | some (.ok content) =>
      obtain ⟨text, htext⟩ := answers_readText.mpr (h.text content hfile)
      have hfound : HasText d path text := ⟨content, hfile, htext⟩
      rw [readFile?_of_hasText hfound, pure_bind]
      exact (hsome text).mpr (h.fits text hfound)

/-! ## One source -/

/-- The text of a configuration file can be taken: it is blank, or its reading
finds only faults of its format. -/
def Fits (decode : Decoder) (format : Format) (text : String) : Prop :=
  isBlankText text = true ∨ WithinLimits (decode format) text

/-- The source holds this configuration. -/
def Gives (d : Disk) (decode : Decoder) (project : Path) (source : String × Format) (v : Value) :
    Prop :=
  ∃ text, HasText d (project.child source.1) text ∧ isBlankText text = false ∧
    decode source.2 text = .ok v ∧ check v = .ok v

/-- The source holds a configuration. -/
def Usable (d : Disk) (decode : Decoder) (project : Path) (source : String × Format) : Prop :=
  ∃ v, Gives d decode project source v

/-- The outer shape that is asked of a configuration. -/
structure Shaped (raw : Value) : Prop where
  object : ∃ fields, raw = .object fields
  enable : ∀ v, raw.get? "enable" = some v → ∃ b, v = .bool b
  patterns : ∀ v, raw.get? "include" = some v → ∃ items, v = .array items
  skipped : ∀ v, raw.get? "exclude" = some v → ∃ items, v = .array items

theorem isBoolOrAbsent_iff {o : Option Value} :
    isBoolOrAbsent o = true ↔ ∀ v, o = some v → ∃ b, v = .bool b := by
  cases o with
  | none => simp [isBoolOrAbsent]
  | some v => cases v <;> simp [isBoolOrAbsent]

theorem isArrayOrAbsent_iff {o : Option Value} :
    isArrayOrAbsent o = true ↔ ∀ v, o = some v → ∃ items, v = .array items := by
  cases o with
  | none => simp [isArrayOrAbsent]
  | some v => cases v <;> simp [isArrayOrAbsent]

/-- A configuration is accepted, as it is, exactly when it has the shape. -/
theorem check_eq_ok {raw v : Value} : check raw = .ok v ↔ v = raw ∧ Shaped raw := by
  constructor
  · intro h
    cases raw with
    | object fields =>
      simp only [check] at h
      split at h
      · cases h
      split at h
      · cases h
      split at h
      · cases h
      next henable hpatterns hskipped =>
      cases h
      simp only [Bool.not_eq_true', Bool.not_eq_false] at henable hpatterns hskipped
      exact ⟨rfl, ⟨fields, rfl⟩, isBoolOrAbsent_iff.mp henable, isArrayOrAbsent_iff.mp hpatterns,
        isArrayOrAbsent_iff.mp hskipped⟩
    | _ => cases h
  · rintro ⟨rfl, h⟩
    obtain ⟨fields, hfields⟩ := h.object
    have henable := isBoolOrAbsent_iff.mpr h.enable
    have hpatterns := isArrayOrAbsent_iff.mpr h.patterns
    have hskipped := isArrayOrAbsent_iff.mpr h.skipped
    subst hfields
    simp [check, henable, hpatterns, hskipped]

theorem eq_of_check {raw v : Value} (h : check raw = .ok v) : raw = v := (check_eq_ok.mp h).1.symm

theorem readValue_eq_config {raw v : Value} :
    readValue name raw = .config v ↔ v = raw ∧ check v = .ok v := by
  constructor
  · intro h
    unfold readValue at h
    split at h
    · cases h
    · split at h
      · next hcheck =>
        cases h
        obtain rfl := eq_of_check hcheck
        exact ⟨rfl, hcheck⟩
      · cases h
  · rintro ⟨rfl, h⟩
    unfold readValue
    split
    · cases h
    · rw [h]

/-- A reading that goes on from a value and from a fault of the format stops at any
other fault. -/
theorem answers_after_read {α : Type} (read : String → Except ReadError Value) (text : String)
    (go : Value → α) (other : α) :
    Answers (match read text with
      | .ok v => pure (go v)
      | .error .malformed => pure other
      | .error e => .crash (.badConfig e) : Report α).result ↔ WithinLimits read text := by
  unfold WithinLimits
  split
  · next hread =>
    rw [hread]
    exact ⟨fun _ e he => (nomatch he), fun _ => ⟨_, rfl⟩⟩
  · next hread =>
    rw [hread]
    exact ⟨fun _ e he => (Except.error.inj he).symm, fun _ => ⟨_, rfl⟩⟩
  · next e hne hread =>
    constructor
    · rintro ⟨r, h⟩
      cases h
    · intro h
      exact (hne (h e hread)).elim

theorem answers_readConfig {shown : String} :
    Answers (readConfig decode shown name format text).result ↔ Fits decode format text := by
  unfold readConfig Fits
  split
  · next hblank => exact ⟨fun _ => Or.inl hblank, fun _ => ⟨_, rfl⟩⟩
  · next hblank =>
    rw [or_iff_right hblank]
    exact answers_after_read (decode format) text (readValue name) _

theorem readConfig_eq_config {shown : String} {v : Value} :
    (readConfig decode shown name format text).result = .ok (.config v) ↔
      isBlankText text = false ∧ decode format text = .ok v ∧ check v = .ok v := by
  unfold readConfig
  constructor
  · intro h
    split at h
    · cases h
    next hblank =>
    split at h
    · next raw hread =>
      obtain ⟨rfl, hcheck⟩ := readValue_eq_config.mp (Except.ok.inj h)
      exact ⟨by simpa using hblank, hread, hcheck⟩
    · cases h
    · cases h
  · rintro ⟨hblank, hread, hcheck⟩
    rw [if_neg (by simp [hblank]), hread]
    exact congrArg Except.ok (readValue_eq_config.mpr ⟨rfl, hcheck⟩)

theorem answers_readSettings :
    Answers (readSettings d decode project name format).result ↔
      Passes d (project.child name) (Fits decode format) :=
  answers_after_readFile? ⟨.absent, rfl⟩ (fun _ => ⟨_, rfl⟩) fun _ => answers_readConfig

/-- A source gives a configuration exactly when it holds one. -/
theorem readSettings_eq_config {v : Value} :
    (readSettings d decode project name format).result = .ok (.config v) ↔
      Gives d decode project (name, format) v := by
  constructor
  · intro h
    have hread : Answers (readFile? d (project.child name)).result :=
      Report.answers_of_bind ⟨_, h⟩
    rcases readFile?_cases hread with hfile | ⟨t, hfile⟩ | ⟨text, htext⟩
    · rw [readSettings, readFile?_of_none hfile] at h
      cases h
    · rw [readSettings, readFile?_of_unreadable hfile] at h
      cases h
    · rw [readSettings, readFile?_of_hasText htext, pure_bind] at h
      exact ⟨text, htext, readConfig_eq_config.mp h⟩
  · rintro ⟨text, htext, h⟩
    rw [readSettings, readFile?_of_hasText htext, pure_bind]
    exact readConfig_eq_config.mpr h

theorem answers_packageConfig? :
    Answers (packageConfig? decode text).result ↔ WithinLimits (decode .json) text :=
  answers_after_read (decode .json) text
    (fun package => (package.get? packageSection).filter Value.isSet) none

/-! ## All sources -/

/-- The source is tried: it stands in the list, and no source before it is
usable. -/
def Tried (d : Disk) (decode : Decoder) (project : Path) (l : List (String × Format))
    (source : String × Format) : Prop :=
  ∃ before after, l = before ++ source :: after ∧ ∀ s ∈ before, ¬ Usable d decode project s

theorem tried_cons {l : List (String × Format)} {first source : String × Format} :
    Tried d decode project (first :: l) source ↔
      source = first ∨ ¬ Usable d decode project first ∧ Tried d decode project l source := by
  constructor
  · rintro ⟨before, after, heq, hbefore⟩
    cases before with
    | nil => exact Or.inl (List.cons.inj heq).1.symm
    | cons s before =>
      obtain ⟨hs, hl⟩ := List.cons.inj heq
      exact Or.inr ⟨hs ▸ hbefore s List.mem_cons_self, before, after, hl,
        fun t ht => hbefore t (List.mem_cons_of_mem s ht)⟩
  · rintro (rfl | ⟨hfirst, before, after, rfl, hbefore⟩)
    · exact ⟨[], l, rfl, fun s hs => (nomatch hs)⟩
    · refine ⟨first :: before, after, rfl, fun s hs => ?_⟩
      rcases List.mem_cons.mp hs with rfl | hs
      · exact hfirst
      · exact hbefore s hs

/-- All files that are tried pass, and so does the package file if it is asked
for. -/
def AllPass (d : Disk) (decode : Decoder) (project : Path) (l : List (String × Format)) : Prop :=
  (∀ source, Tried d decode project l source →
      Passes d (project.child source.1) (Fits decode source.2)) ∧
    ((∀ source ∈ l, ¬ Usable d decode project source) →
      Passes d (project.child packageFile) (WithinLimits (decode .json)))

theorem allPass_nil :
    AllPass d decode project [] ↔
      Passes d (project.child packageFile) (WithinLimits (decode .json)) := by
  constructor
  · intro h
    exact h.2 fun source hs => (nomatch hs)
  · intro h
    refine ⟨?_, fun _ => h⟩
    rintro source ⟨before, after, heq, -⟩
    simp at heq

theorem allPass_cons {first : String × Format} {l : List (String × Format)} :
    AllPass d decode project (first :: l) ↔
      Passes d (project.child first.1) (Fits decode first.2) ∧
        (¬ Usable d decode project first → AllPass d decode project l) := by
  unfold AllPass
  simp only [tried_cons, List.forall_mem_cons]
  constructor
  · rintro ⟨hsources, hpackage⟩
    exact ⟨hsources first (Or.inl rfl), fun hfirst =>
      ⟨fun source hs => hsources source (Or.inr ⟨hfirst, hs⟩), fun hl => hpackage ⟨hfirst, hl⟩⟩⟩
  · rintro ⟨hfirst, hl⟩
    refine ⟨?_, fun h => (hl h.1).2 h.2⟩
    rintro source (rfl | ⟨hunusable, hs⟩)
    · exact hfirst
    · exact (hl hunusable).1 source hs

theorem answers_readPackage :
    Answers (readPackage d decode project).result ↔
      Passes d (project.child packageFile) (WithinLimits (decode .json)) := by
  refine answers_after_readFile? ⟨none, rfl⟩ (fun _ => ⟨none, rfl⟩) fun text => ?_
  -- what is done with the section afterwards ends no run: a wrong shape is dropped
  rw [← answers_packageConfig?, Report.result_bind]
  refine ⟨Answers.of_bind, ?_⟩
  rintro ⟨value, h⟩
  rw [h]
  cases value with
  | none => exact ⟨none, rfl⟩
  | some value =>
    dsimp only [ok_bind]
    split <;> exact ⟨_, rfl⟩

/-- After a source that gives nothing, the others are tried. -/
theorem result_loadFrom_of_not_usable {l : List (String × Format)} {reading : Reading}
    (h : (readSettings d decode project name format).result = .ok reading)
    (hunusable : ¬ Usable d decode project (name, format)) :
    (loadFrom d decode project ((name, format) :: l)).result
      = (loadFrom d decode project l).result := by
  rw [loadFrom, Report.result_bind, h, ok_bind]
  cases reading with
  | config v => exact absurd ⟨v, readSettings_eq_config.mp h⟩ hunusable
  | absent => rfl
  | unusable warning => exact Report.result_bind _ _

/-- Loading gives an answer exactly when all files that are tried pass. -/
theorem answers_loadFrom_iff (l : List (String × Format)) :
    Answers (loadFrom d decode project l).result ↔ AllPass d decode project l := by
  induction l with
  | nil => exact answers_readPackage.trans allPass_nil.symm
  | cons first l ih =>
    obtain ⟨name, format⟩ := first
    rw [allPass_cons, ← answers_readSettings]
    by_cases husable : Usable d decode project (name, format)
    · -- a usable source ends the search, whatever stands after it
      obtain ⟨v, hv⟩ := husable
      have hread := readSettings_eq_config.mpr hv
      refine iff_of_true ⟨some ⟨v, name⟩, ?_⟩ ⟨⟨_, hread⟩, fun h => (h ⟨v, hv⟩).elim⟩
      rw [loadFrom, Report.result_bind, hread]
      rfl
    · constructor
      · rintro ⟨r, h⟩
        have hread : Answers (readSettings d decode project name format).result :=
          Report.answers_of_bind ⟨r, h⟩
        obtain ⟨reading, hreading⟩ := hread
        rw [result_loadFrom_of_not_usable hreading husable] at h
        exact ⟨⟨reading, hreading⟩, fun _ => ih.mp ⟨r, h⟩⟩
      · rintro ⟨⟨reading, hreading⟩, hl⟩
        rw [result_loadFrom_of_not_usable hreading husable]
        exact ih.mpr (hl husable)

/-- The configuration in the package file has passed the check. -/
theorem check_of_readPackage {loaded : Loaded}
    (h : (readPackage d decode project).result = .ok (some loaded)) :
    check loaded.config = .ok loaded.config := by
  rw [readPackage, Report.result_bind] at h
  obtain ⟨file, -, h⟩ := bind_eq_ok.mp h
  match file with
  | none => cases h
  | some (.error t) => cases h
  | some (.ok text) =>
    dsimp only at h
    rw [Report.result_bind] at h
    obtain ⟨value, -, h⟩ := bind_eq_ok.mp h
    cases value with
    | none => cases h
    | some value =>
      dsimp only at h
      split at h
      · next v hcheck =>
        cases h
        obtain rfl := eq_of_check hcheck
        exact hcheck
      · cases h

/-- A configuration that is loaded has passed the check. -/
theorem check_of_loadFrom {l : List (String × Format)} {loaded : Loaded}
    (h : (loadFrom d decode project l).result = .ok (some loaded)) :
    check loaded.config = .ok loaded.config := by
  induction l with
  | nil => exact check_of_readPackage h
  | cons first l ih =>
    obtain ⟨name, format⟩ := first
    rw [loadFrom, Report.result_bind] at h
    obtain ⟨reading, hreading, h⟩ := bind_eq_ok.mp h
    cases reading with
    | config v =>
      cases h
      obtain ⟨text, -, -, -, hcheck⟩ := readSettings_eq_config.mp hreading
      exact hcheck
    | absent => exact ih h
    | unusable warning => exact ih ((Report.result_bind _ _).symm.trans h)

/-! ## What a configuration is good for -/

/-- The items of an array, or else some others. -/
def itemsOr (others : List Value) : Option Value → List Value
  | some (.array items) => items
  | _ => others

/-- The settings of a configuration with the right shape: what it does not say is
taken from the default. -/
theorem Shaped.ofConfig?_eq {config : Value} (h : Shaped config) :
    ofConfig? config = some ⟨(config.get? "enable").getD (.bool true),
      itemsOr default.patterns (config.get? "include"), itemsOr [] (config.get? "exclude")⟩ := by
  unfold ofConfig?
  split
  · -- only the empty object has the shape and is not set, and it says nothing
    next hempty =>
    obtain ⟨fields, rfl⟩ := h.object
    cases fields with
    | nil => rfl
    | cons field fields => simp [Value.isSet] at hempty
  · have hitems : ∀ key others, (∀ v, config.get? key = some v → ∃ items, v = .array items) →
        ((config.get? key).getD (.array others)).items?
          = some (itemsOr others (config.get? key)) := by
      intro key others hkey
      cases hget : config.get? key with
      | none => rfl
      | some v =>
        obtain ⟨items, rfl⟩ := hkey v hget
        rfl
    rw [hitems _ _ h.patterns, hitems _ _ h.skipped]
    rfl

/-- Directories can be had exactly of patterns that are texts. -/
theorem exists_directories?_iff {patterns : List Value} :
    (∃ dirs, directories? patterns = some dirs) ↔ ∀ v ∈ patterns, ∃ p, v = .string p := by
  have hpoints : (∃ ps, patterns.mapM points? = some ps) ↔ ∀ v ∈ patterns, ∃ p, v = .string p := by
    induction patterns with
    | nil => exact iff_of_true ⟨[], rfl⟩ (fun v hv => (nomatch hv))
    | cons v patterns ih =>
      rw [List.forall_mem_cons, ← ih, List.mapM_cons]
      cases v <;> simp [points?, Option.bind_eq_some_iff]
  rw [← hpoints, directories?]
  simp

/-- A container is no text, so it is no name that is passed over anyway. -/
theorem not_isAlwaysSkipped {v : Value} (h : v.isContainer = true) :
    (!isAlwaysSkipped v) = true := by
  cases v with
  | array items => rfl
  | object fields => rfl
  | _ => cases h

/-- Names can be had exactly where none is a container; those that are always
passed over are none. -/
theorem exists_namesOf?_iff {s : Settings} :
    (∃ names, namesOf? s.skippedNames = some names) ↔ ∀ v ∈ s.skipped, v.isContainer = false := by
  have hnames : (∃ names, namesOf? s.skippedNames = some names) ↔
      ∀ v ∈ s.skippedNames, v.isContainer = false := by
    unfold namesOf?
    split
    · next h => simpa using h
    · next h => simpa using h
  rw [hnames]
  constructor
  · intro h v hv
    by_contra hcontainer
    have hkept : v ∈ s.skippedNames :=
      List.mem_append_right _
        (List.mem_filter.mpr ⟨hv, not_isAlwaysSkipped (by simpa using hcontainer)⟩)
    exact hcontainer (h v hkept)
  · intro h v hv
    rcases List.mem_append.mp hv with hv | hv
    · obtain ⟨text, -, rfl⟩ := List.mem_map.mp hv
      rfl
    · exact h v (List.mem_filter.mp hv).1

/-- The settings of a configuration, and what they can be used for. -/
structure Serves (config : Value) (s : Settings) : Prop where
  merged : ofConfig? config = some s
  enable : ∃ b, s.enable = .bool b
  /-- The directories to look in are there unless a pattern is no text. -/
  directories_iff : (∃ dirs, directories? s.patterns = some dirs) ↔
    ∀ items, config.get? "include" = some (.array items) → ∀ v ∈ items, ∃ p, v = .string p
  /-- The names to pass over are there unless one is a container. -/
  names_iff : (∃ names, namesOf? s.skippedNames = some names) ↔
    ∀ items, config.get? "exclude" = some (.array items) → ∀ v ∈ items, v.isContainer = false

theorem Shaped.exists_serves {config : Value} (h : Shaped config) : ∃ s, Serves config s := by
  have hmem : ∀ {P : Value → Prop} {key others}, (∀ v ∈ others, P v) →
      ((∀ v ∈ itemsOr others (config.get? key), P v) ↔
        ∀ items, config.get? key = some (.array items) → ∀ v ∈ items, P v) := by
    intro P key others hothers
    unfold itemsOr
    split
    · next items hget => simp [hget]
    · next hnot => exact iff_of_true hothers fun items hget => (hnot items hget).elim
  refine ⟨_, h.ofConfig?_eq, ?_, ?_, ?_⟩
  · cases hget : config.get? "enable" with
    | none => exact ⟨true, rfl⟩
    | some v => exact h.enable v hget
  · refine exists_directories?_iff.trans (hmem ?_)
    -- the patterns of the default are texts
    intro v hv
    obtain ⟨text, -, rfl⟩ := List.mem_map.mp hv
    exact ⟨_, rfl⟩
  · exact exists_namesOf?_iff.trans (hmem fun v hv => (nomatch hv))

/-! ## Loading -/

/-- Loading the configuration of a project: when it gives an answer, and what the
answer is good for. -/
structure LoadExact (d : Disk) (decode : Decoder) (project : Path) : Prop where
  answers_iff : Answers (load d decode project).result ↔ AllPass d decode project sources
  serves : ∀ loaded, (load d decode project).result = .ok (some loaded) →
    ∃ s, Serves loaded.config s

/-- Loading gives an answer exactly when all files that are tried pass, and what is
loaded can be used unless a pattern is no text or a name is a container. -/
theorem loadExact_load (d : Disk) (decode : Decoder) (project : Path) :
    LoadExact d decode project where
  answers_iff := answers_loadFrom_iff sources
  serves := fun _ h => (check_eq_ok.mp (check_of_loadFrom h)).2.exists_serves

/-- A project with a package file that is no text. -/
def brokenPackage : Disk := ⟨[], ⟨[(["package.json"], .file (.bytes [0xff]))]⟩, {}⟩

/-- A configuration with a number for a pattern and a list for a name. -/
def oddConfig : Value :=
  .object [(.ofString "include", .array [.int 1]), (.ofString "exclude", .array [.array []])]

/-- A file that is no text ends the loading, and a configuration with the right
shape can still have settings of no use. -/
theorem bytes_end_loading :
    (∀ decode, (load brokenPackage decode (.ofPlace [])).result
        = .error (.badText ⟨0, 0xff, 1, .invalidStart⟩)) ∧
      check oddConfig = .ok oddConfig ∧
      ∃ s, ofConfig? oddConfig = some s ∧ directories? s.patterns = none ∧
        namesOf? s.skippedNames = none :=
  ⟨fun _ => rfl, rfl, _, rfl, rfl, rfl⟩

end CodeAtlas.Settings
