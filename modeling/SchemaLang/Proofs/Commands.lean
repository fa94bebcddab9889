import SchemaLang.CommandLine.Run

/-!
# What commands do to files

* Every command whose inputs and output have names can be asked for, whatever the names are
  (`Command.exists_arguments`).
* A file that is written is found again at its path, has the text that was written, and no other file or folder has
  changed (`Files.replaced_of_write`). The way to it goes through folders only, none of which can be the file itself
  (`Files.locate_of_folders`).
* Main result: `CommandLine.run_all_or_nothing`.
-/

namespace SchemaLang

/-! ## Command lines -/

namespace Command

/-- Inputs with names may stand at the end, behind two dashes. -/
theorem addInputs?_eq {inputs : List String} (h : "" ∉ inputs) (s : Settings) :
    s.addInputs? inputs = some ⟨s.inputs ++ inputs, s.ns, s.output⟩ := by
  induction inputs generalizing s with
  | nil => simp [Settings.addInputs?]
  | cons path inputs ih =>
    obtain ⟨hpath, hinputs⟩ := List.ne_and_not_mem_of_not_mem_cons h
    rw [Settings.addInputs?, Settings.addInput?, if_neg (Ne.symm hpath), Option.bind_some, ih hinputs]
    simp

/-- The word for an option with its value. -/
def valuedWord (name value : String) : String := String.ofList ('-' :: '-' :: (name.toList ++ '=' :: value.toList))

theorem readWords_valued {options : List ValueOption} {name value : String} {option : ValueOption} {s given : Settings}
    (hname : '=' ∉ name.toList) (h : (options.find? fun option => option.name = name) = some option)
    (hgiven : s.give? option value = some given) (words : List String) :
    readWords options s none (valuedWord name value :: words) = readWords options given none words := by
  have hne : ∀ c ∈ name.toList, decide (c ≠ '=') = true := fun c hc => by
    simpa using fun he : c = '=' => hname (he ▸ hc)
  have htake : (name.toList ++ '=' :: value.toList).takeWhile (· ≠ '=') = name.toList := by
    rw [List.takeWhile_append_of_pos hne]
    simp
  have hdrop : (name.toList ++ '=' :: value.toList).dropWhile (· ≠ '=') = '=' :: value.toList := by
    rw [List.dropWhile_append_of_pos hne]
    simp
  have hflags : flags? options (valuedWord name value) = some (some (.valued option value)) := by
    rw [flags?, valuedWord, String.toList_ofList]
    show some (readName? options (name.toList ++ '=' :: value.toList)) = _
    rw [readName?, htake, hdrop, String.ofList_toList]
    simp [h]
  have hdashes : valuedWord name value ≠ "--" := by
    intro he
    have hlist := congrArg String.toList he
    rw [valuedWord, String.toList_ofList, show "--".toList = ['-', '-'] from rfl] at hlist
    simp at hlist
  rw [readWords, if_neg hdashes, hflags]
  simp only [hgiven, orMisuse]
  rfl

/-- Inputs with names are the last settings, behind two dashes. -/
theorem readWords_inputs (options : List ValueOption) {inputs : List String} (h : "" ∉ inputs) (s : Settings) :
    readWords options s none ("--" :: inputs) = .ok ⟨s.inputs ++ inputs, s.ns, s.output⟩ := by
  rw [readWords, if_pos rfl, addInputs?_eq h, orMisuse]

theorem settings_of_readWords {options : List ValueOption} {words : List String} {s : Settings}
    (h : readWords options Settings.start none words = .ok s) (hne : s.inputs ≠ []) :
    settings options words = .ok s := by
  rw [settings, h]
  exact if_neg hne

theorem settings_spelled {options : List ValueOption} {inputs : List String}
    (h : (options.find? fun option => option.name = "namespace") = some .ns) (hne : inputs ≠ []) (hnamed : "" ∉ inputs)
    (ns : String) : settings options (valuedWord "namespace" ns :: "--" :: inputs) = .ok ⟨inputs, some ns, none⟩ := by
  refine settings_of_readWords ?_ hne
  have hgiven : Settings.start.give? .ns ns = some ⟨[], some ns, none⟩ := rfl
  rw [readWords_valued (by decide) h hgiven, readWords_inputs options hnamed, List.nil_append]

theorem settings_spelled_output {inputs : List String} (hne : inputs ≠ []) (hnamed : "" ∉ inputs) (ns : String)
    {path : String} (hpath : path ≠ "") :
    settings [.ns, .output] (valuedWord "output" path :: valuedWord "namespace" ns :: "--" :: inputs) =
      .ok ⟨inputs, some ns, some path⟩ := by
  refine settings_of_readWords ?_ hne
  have houtput : Settings.start.give? .output path = some ⟨[], none, some path⟩ := if_neg hpath
  have hns : Settings.give? ⟨[], none, some path⟩ .ns ns = some ⟨[], some ns, some path⟩ := rfl
  rw [readWords_valued (by decide) rfl houtput, readWords_valued (by decide) rfl hns, readWords_inputs _ hnamed,
    List.nil_append]

/-- Every command can be asked for whose inputs and output have names. -/
theorem exists_arguments (command : Command) (hne : command.inputs ≠ []) (hnamed : "" ∉ command.inputs)
    (houtput : ∀ inputs ns, command ≠ .dump inputs ns (some "")) : ∃ words, ofArguments? words = some command := by
  simp only [ofArguments?_eq_some_iff]
  cases command with
  | check inputs ns =>
    refine ⟨"check" :: valuedWord "namespace" ns :: "--" :: inputs, ?_⟩
    rw [request_check, settings_spelled rfl (show inputs ≠ [] from hne) hnamed]
    rfl
  | dump inputs ns output =>
    cases output with
    | none =>
      refine ⟨"dump" :: valuedWord "namespace" ns :: "--" :: inputs, ?_⟩
      rw [request_dump, settings_spelled rfl (show inputs ≠ [] from hne) hnamed]
      rfl
    | some path =>
      have hpath : path ≠ "" := by
        rintro rfl
        exact houtput inputs ns rfl
      refine ⟨"dump" :: valuedWord "output" path :: valuedWord "namespace" ns :: "--" :: inputs, ?_⟩
      rw [request_dump, settings_spelled_output (show inputs ≠ [] from hne) hnamed ns hpath]
      rfl

end Command

/-! ## Writing a file -/

namespace Files

variable {files written : Files} {path text : String} {place : List String}

/-- Names that lead somewhere lead to the same place if all folders are there. -/
theorem locate_of_folders (h : ∀ folder, files.node? folder = some .folder → written.node? folder = some .folder) :
    ∀ {names here there : List String}, files.locate here names = .ok there → written.locate here names = .ok there
  | [], here, there, hl => hl
  | name :: rest, here, there, hl => by
    rw [locate] at hl ⊢
    split at hl
    · cases hl
    · cases hl
    · rename_i hfolder
      simp only [h here hfolder]
      split at hl
      case isTrue hstay =>
        rw [if_pos hstay]
        exact locate_of_folders h hl
      case isFalse hstay =>
        rw [if_neg hstay]
        split at hl
        case isTrue hup =>
          rw [if_pos hup]
          exact locate_of_folders h hl
        case isFalse hup =>
          rw [if_neg hup]
          exact locate_of_folders h hl

theorem locate_append (files : Files) (rest : List String) : ∀ (names here : List String),
    files.locate here (names ++ rest) = files.locate here names >>= fun there => files.locate there rest
  | [], here => rfl
  | name :: names, here => by
    rw [List.cons_append, locate, locate]
    split
    · rfl
    · rfl
    · split
      · exact locate_append files rest names here
      · split
        · exact locate_append files rest names (parent here)
        · exact locate_append files rest names (here ++ [name])

/-- No empty names at the end are cut off if there are none. -/
theorem withoutTrailing_eq {names : List String} (h : names.getLast? ≠ some "") : withoutTrailing names = names := by
  rw [withoutTrailing]
  cases hr : names.reverse with
  | nil => simp [List.reverse_eq_nil_iff.1 hr]
  | cons name before =>
    have hname : name ≠ "" := by
      rintro rfl
      rw [← List.head?_reverse, hr] at h
      exact h rfl
    rw [List.dropWhile_cons_of_neg (by simpa using hname), ← hr, List.reverse_reverse]

/-- A file can be written where no folder is, at the end of a way through folders. -/
theorem exists_of_locateTarget (h : files.locateTarget path = .ok place) :
    path ≠ "" ∧ files.node? place ≠ some .folder ∧ files.locate (startOf path) (namesOf path) = .ok place := by
  rw [locateTarget] at h
  split at h
  · cases h
  rename_i hpath
  split at h
  · cases h
  rename_i name hname
  obtain ⟨folder, hl, h⟩ := exists_of_bind_eq_ok h
  split at h
  · cases h
  · cases h
  rename_i hfolder
  split at h
  · cases h
  rename_i hplain
  split at h
  · cases h
  rename_i hfree
  obtain rfl : folder ++ [name] = place := Except.ok.inj h
  simp only [not_or] at hplain
  rw [withoutTrailing_eq hplain.1] at hname hl
  obtain ⟨names, hnames⟩ := List.getLast?_eq_some_iff.1 hname
  rw [hnames, List.dropLast_concat] at hl
  refine ⟨hpath, hfree, ?_⟩
  rw [hnames, locate_append, hl]
  simp [bind, Except.bind, locate, hfolder, hplain]

/-- A path has a new text, and nothing else is new. -/
structure Replaced (files written : Files) (path text : String) : Prop where
  read : written.read path = .ok text
  others : ∃ place, written.locatePath path = .ok place ∧
    ∀ other, other ≠ place → written.node? other = files.node? other

theorem decode_toUTF8 (text : String) : decode text.toUTF8 = .ok text := by
  have hvalid : text.toUTF8.IsValidUTF8 := text.isValidUTF8
  rw [decode, String.fromUTF8?, dif_pos hvalid]
  rfl

/-- A text that is written is read at its path, and all else stays as it was. -/
theorem replaced_of_write (h : files.write path text = .ok written) : files.Replaced written path text := by
  rw [write, writeBytes] at h
  obtain ⟨place, ht, hset⟩ := exists_of_bind_eq_ok h
  obtain rfl : files.set place (.file text.toUTF8) = written := Except.ok.inj hset
  obtain ⟨hpath, hfree, hl⟩ := exists_of_locateTarget ht
  have hgiven : isGiven place = false := by
    refine Bool.eq_false_iff.2 fun hg => hfree ?_
    rw [node?, if_pos hg]
  have hother : ∀ other, other ≠ place →
      (files.set place (.file text.toUTF8)).node? other = files.node? other := fun other hne => by
    rw [node?_set hgiven, if_neg hne]
  have hlocate : (files.set place (.file text.toUTF8)).locatePath path = .ok place := by
    rw [locatePath, if_neg hpath]
    refine locate_of_folders (fun folder hfolder => ?_) hl
    rw [hother folder fun he => hfree (he ▸ hfolder), hfolder]
  refine ⟨?_, place, hlocate, hother⟩
  have hnode : (files.set place (.file text.toUTF8)).node? place = some (.file text.toUTF8) := by
    rw [node?_set hgiven, if_pos rfl]
  have hbytes : (files.set place (.file text.toUTF8)).readBytes path = .ok text.toUTF8 := by
    rw [readBytes, hlocate]
    simp only [bind, Except.bind, hnode]
    rfl
  rw [Files.read, hbytes]
  exact decode_toUTF8 text

end Files

/-! ## Commands -/

namespace CommandLine

variable {files : Files} {words : List String} {command : Command}

theorem run_of_arguments (h : Command.ofArguments? words = some command) :
    run files words = runCommand files command := by
  rw [run, Command.ofArguments?_eq_some_iff.1 h]

/-- If the inputs do not compile, a command reports this and does no more. -/
theorem runCommand_of_error {problem : Diagnostic}
    (h : Schema.compileSources files.disk (command.inputs.map Source.file) command.ns = .error problem) :
    runCommand files command =
      (failure (Command.located (command.inputs.map Source.file) problem), files) := by
  rw [runCommand, Command.outcome, Command.sources, h]
  rfl

/-- The commands on the same inputs all fail in the same way, with no output and no file changed, or all compile the
same schema. Then only the command that is to save it changes a file, and only the one that it names. -/
theorem run_all_or_nothing {inputs : List String} {ns path : String} {check dump save : List String}
    (hcheck : Command.ofArguments? check = some (.check inputs ns))
    (hdump : Command.ofArguments? dump = some (.dump inputs ns none))
    (hsave : Command.ofArguments? save = some (.dump inputs ns (some path))) :
    (∀ problem, Schema.compileSources files.disk (inputs.map Source.file) ns = .error problem →
      ∃ text, ∀ words ∈ [check, dump, save], run files words = (⟨1, "", some text⟩, files)) ∧
    (∀ s, Schema.compileSources files.disk (inputs.map Source.file) ns = .ok s →
      (∃ text, run files check = (⟨0, text, none⟩, files)) ∧
      run files dump = (⟨0, s.exported ++ "\n", none⟩, files) ∧
      (∀ written, files.write path s.exported = .ok written →
        (∃ text, run files save = (⟨0, text, none⟩, written)) ∧ files.Replaced written path s.exported) ∧
      (∀ fault, files.write path s.exported = .error fault →
        ∃ text, run files save = (⟨1, "", some text⟩, files))) := by
  constructor
  · intro problem hp
    refine ⟨"error: " ++ Command.located (inputs.map Source.file) problem ++ "\n", fun words hwords => ?_⟩
    simp only [List.mem_cons, List.not_mem_nil, or_false] at hwords
    rcases hwords with rfl | rfl | rfl
    · rw [run_of_arguments hcheck]
      exact @runCommand_of_error files (.check inputs ns) problem hp
    · rw [run_of_arguments hdump]
      exact @runCommand_of_error files (.dump inputs ns none) problem hp
    · rw [run_of_arguments hsave]
      exact @runCommand_of_error files (.dump inputs ns (some path)) problem hp
  · intro s hs
    rw [run_of_arguments hcheck, run_of_arguments hdump, run_of_arguments hsave]
    simp only [runCommand, Command.outcome, Command.sources, Command.inputs, Command.ns, hs, Command.conclude]
    refine ⟨⟨_, rfl⟩, rfl, fun written hw => ?_, fun fault hf => ?_⟩
    · simp only [hw]
      exact ⟨⟨_, rfl⟩, Files.replaced_of_write hw⟩
    · simp only [hf]
      exact ⟨_, rfl⟩

/-- A schema file is the one that the saved schema replaces. -/
theorem run_all_or_nothing_overwritten :
    let files : Files := ⟨[(["a"], .file "struct A \x7b string b; \x7d".toUTF8)]⟩
    ∃ s written, Schema.compileSources files.disk [.file "a"] "" = .ok s ∧ files.write "a" s.exported = .ok written ∧
      (∃ text, run files ["check", "a"] = (⟨0, text, none⟩, files)) ∧
      run files ["dump", "a"] = (⟨0, s.exported ++ "\n", none⟩, files) ∧
      (∃ text, run files ["dump", "-o", "a", "a"] = (⟨0, text, none⟩, written)) ∧
      files.Replaced written "a" s.exported := by
  intro files
  obtain ⟨s, hs⟩ : ∃ s, Schema.compileSources files.disk [.file "a"] "" = .ok s := exists_of_isOk (by decide +kernel)
  obtain ⟨written, hw⟩ : ∃ written, files.write "a" s.exported = .ok written := exists_of_isOk rfl
  have hruns := @run_all_or_nothing files ["a"] "" "a" ["check", "a"] ["dump", "a"] ["dump", "-o", "a", "a"] (by decide)
    (by decide) (by decide)
  obtain ⟨hcheck, hdump, hsave, _⟩ := hruns.2 s hs
  exact ⟨s, written, hs, hw, hcheck, hdump, hsave written hw⟩

end CommandLine

end SchemaLang
