import ImageScript.Command.Basic
import ImageScript.Proofs.Bundle.CleanupReading
import ImageScript.Proofs.Document.CanonicalText
import ImageScript.Proofs.Files.Overwriting
import ImageScript.Proofs.Script.NameRow
import ImageScript.Proofs.Text.Encoding

/-!
# Formatting settles a script

The format command writes the canonical text of a script over the script. Where that text is its own
canonical text, no later run of the command finds anything to write: the bundle is found as before,
its script is read as it was written, and its images are where they were.

Main statements: `Overwritten.ofText_eq`, `Command.runFormat_settled`, `canonical_stable`.
-/

namespace ImageScript

variable {σ : Type} [FileSystem σ]

namespace Overwritten

variable {p : Path} {bytes : Bytes} {fs fs' : σ} (h : Overwritten p bytes fs fs')

include h

theorem resolve_eq (b : Bundle) (name : Text) : b.resolve fs' name = b.resolve fs name := by
  unfold Bundle.resolve
  split
  · rfl
  · rw [h.has_eq, h.isDir_eq]

/-- Reading a text does not depend on the bytes of files. -/
theorem ofText_eq (s : Text) (b : Bundle) : Document.ofText s b fs' = Document.ofText s b fs := by
  unfold Document.ofText Synthesis.allSegments Synthesis.segments
  dsimp only
  rw [Synthesis.build_eq_of_resolve_eq fun _ _ _ name _ _ => h.resolve_eq b name]

theorem openBundle_eq (working : Path) (input : Text) :
    Command.openBundle working input fs' = Command.openBundle working input fs := by
  unfold Command.openBundle Bundle.ofFolder
  simp only [h.has_eq, h.isDir_eq, h.list_eq]

/-- The configuration stands in a file of its own name. -/
theorem load_eq {n : Text} (hp : p.fileName? = some n) (hn : n ≠ Config.fileName)
    (working : Path) : Config.load working fs' = Config.load working fs := by
  have hname : (working.join Config.fileName).fileName? = some Config.fileName :=
    Path.fileName?_join working ⟨by decide, by decide, by decide, by decide⟩
  unfold Config.load
  dsimp only
  rw [h.has_eq, h.read_other _ n _ hp hname hn]

end Overwritten

/-! ### The name of a script -/

namespace Bundle

/-- The script of a folder has a name of its own. -/
theorem isName_scriptName (folder : Path) :
    Path.IsName (scriptName (folder.fileStem?.getD [])) := by
  have hslash : '/' ∉ folder.fileStem?.getD [] := by
    unfold Path.fileStem?
    cases hname : folder.fileName? with
    | none => exact List.not_mem_nil
    | some n =>
      exact fun hmem => (Path.isName_of_fileName? hname).no_slash
        (ImageName.splitExtension_subset n hmem)
  generalize folder.fileStem?.getD [] = stem at hslash
  have hlength : 3 ≤ (scriptName stem).length := by
    rw [scriptName, List.length_append]
    exact Nat.le_add_left 3 stem.length
  refine ⟨?_, ?_, ?_, ?_⟩
  · rintro heq
    simp [heq] at hlength
  · rintro heq
    simp [heq] at hlength
  · rintro heq
    simp [heq] at hlength
  · rw [scriptName, List.mem_append, not_or]
    exact ⟨hslash, by decide⟩

/-- Whether the file name of a path is not that of the configuration file. -/
def IsNamed (p : Path) : Prop := ∃ n, p.fileName? = some n ∧ n ≠ Config.fileName

theorem isNamed_of_isScript {p : Path} (h : isScript p = true) : IsNamed p := by
  obtain ⟨n, hn, hext⟩ := Option.bind_eq_some_iff.1 (of_decide_eq_true h)
  refine ⟨n, hn, ?_⟩
  rintro rfl
  exact absurd hext (by decide)

theorem isNamed_expected (folder : Path) :
    IsNamed (folder.join (scriptName (folder.fileStem?.getD []))) := by
  refine ⟨_, Path.fileName?_join folder (isName_scriptName folder), ?_⟩
  generalize folder.fileStem?.getD [] = stem
  intro heq
  have hlast : (scriptName stem).getLast? = some 'y' := by
    rw [scriptName, List.getLast?_append]
    rfl
  rw [heq] at hlast
  exact absurd hlast (by decide)

theorem isNamed_of_ofFolder {fs : σ} {folder : Path} {b : Bundle}
    (h : ofFolder fs folder = .ok b) : IsNamed b.script := by
  unfold ofFolder at h
  simp only [bind, Except.bind, pure, Except.pure, throw, throwThe, MonadExceptOf.throw] at h
  repeat' split at h
  all_goals try cases h
  · exact isNamed_expected folder
  · next entries hentries script hfilter =>
    exact isNamed_of_isScript (List.mem_filter.1 (hfilter ▸ List.mem_singleton_self script)).2
  · exact isNamed_expected folder

end Bundle

namespace Command

open ImageScript.Bundle

/-- The script that a command works on does not have the name of the configuration file. -/
theorem isNamed_of_openBundle {working : Path} {input : Text} {fs : σ} {b : Bundle}
    (h : openBundle working input fs = .ok b) : IsNamed b.script := by
  unfold openBundle at h
  dsimp only at h
  split at h
  · cases hfolder : ofFolder fs (working.join input) with
    | error e =>
      rw [hfolder] at h
      cases h
    | ok b' =>
      rw [hfolder] at h
      exact Except.ok.inj h ▸ isNamed_of_ofFolder hfolder
  · split at h
    · next hscript =>
      obtain rfl := Except.ok.inj h
      rw [Bool.and_eq_true] at hscript
      exact isNamed_of_isScript hscript.1
    · cases h

/-- The bytes of a script that can be read. -/
theorem read_of_readScript {b : Bundle} {fs : σ} {s : Text} (h : b.readScript fs = .ok s) :
    ∃ bytes, FileSystem.read fs b.script = .ok bytes ∧ Text.decodeLossy bytes = s := by
  unfold readScript at h
  cases hbytes : FileSystem.read fs b.script with
  | error e =>
    rw [hbytes] at h
    cases h
  | ok bytes =>
    rw [hbytes] at h
    exact ⟨bytes, rfl, Except.ok.inj h⟩

/-- What the command says of a script that is in canonical form. -/
def canonicalLine (b : Bundle) : Text := "  ✓ ".toList ++ b.script.text ++ " is canonical".toList

section Readable

variable [LawfulFileSystem σ] {working : Path} {input : Text} {t t' : Terminal σ} {c : Config}
  {b : Bundle} {s : Text} (hconfig : Config.load working t.files = .ok c)
  (hopen : openBundle working input t.files = .ok b) (hread : b.readScript t.files = .ok s)

include hconfig hopen hread

/-- What the command does with a script that can be read. -/
theorem runFormat_eq (check : Bool) : runFormat working input check t =
    (if (Document.ofText s b t.files).text = s then Terminal.say (canonicalLine b)
      else if check then throw (.notCanonical b.script)
      else do
        Terminal.perform .bundle (b.writeScript (Document.ofText s b t.files).text)
        Terminal.say ("  ✓ Formatted ".toList ++ b.script.text)
      : EStateM CommandError (Terminal σ) Unit) t := by
  have hhas : FileSystem.has t.files b.script = true := by
    obtain ⟨bytes, hbytes, -⟩ := read_of_readScript hread
    exact LawfulFileSystem.has_of_read hbytes
  have hload : Session.load b c.editor t.files =
      .ok ⟨b, ⟨.ofText s b t.files, .new Session.undoLevels⟩, c.editor⟩ := by
    rw [Session.load, Session.scriptText, if_pos hhas, hread]
    rfl
  have hask : ∀ {ε α : Type} (wrap : ε → CommandError) {question : σ → Except ε α} {a : α},
      question t.files = .ok a → Terminal.ask wrap question t = .ok a t := by
    intro ε α wrap question a h
    rw [Terminal.ask, h]
  unfold runFormat
  simp only [bind, EStateM.bind, hask .config hconfig, hask id hopen, hask .bundle hread,
    hask .edit hload]
  rfl

theorem runFormat_of_canonical (h : (Document.ofText s b t.files).text = s) (check : Bool) :
    runFormat working input check t = Terminal.say (canonicalLine b) t := by
  rw [runFormat_eq hconfig hopen hread, if_pos h]

/-- A run that went through left the files of a canonical script as they were, or wrote the
canonical text. -/
theorem files_of_runFormat (h : runFormat working input false t = .ok () t') :
    (Document.ofText s b t.files).text = s ∧ t'.files = t.files
      ∨ FileSystem.write b.script (Text.encode (Document.ofText s b t.files).text) t.files =
        .ok () t'.files := by
  by_cases hcanonical : (Document.ofText s b t.files).text = s
  · rw [runFormat_of_canonical hconfig hopen hread hcanonical] at h
    cases h
    exact Or.inl ⟨hcanonical, rfl⟩
  · right
    rw [runFormat_eq hconfig hopen hread, if_neg hcanonical, if_neg Bool.false_ne_true] at h
    simp only [bind, EStateM.bind, Terminal.perform, writeScript, doing, EStateM.adaptExcept] at h
    cases hwrite : FileSystem.write b.script (Text.encode (Document.ofText s b t.files).text)
      t.files with
    | ok u fs =>
      rw [hwrite] at h
      cases h
      rfl
    | error e fs =>
      rw [hwrite] at h
      cases h

end Readable

/-- Where the canonical text of a script is its own canonical text, a run that went through leaves
nothing to write: any later run says that the script is canonical. -/
theorem runFormat_settled [LawfulFileSystem σ] {working : Path} {input : Text}
    {t t' : Terminal σ} {b : Bundle} {s : Text}
    (hopen : openBundle working input t.files = .ok b) (hread : b.readScript t.files = .ok s)
    (hstable : (Document.ofText (Document.ofText s b t.files).text b t.files).text =
      (Document.ofText s b t.files).text)
    (hformat : runFormat working input false t = .ok () t') (check : Bool) :
    runFormat working input check t' = Terminal.say (canonicalLine b) t' := by
  obtain ⟨c, hconfig⟩ : ∃ c, Config.load working t.files = .ok c := by
    cases hload : Config.load working t.files with
    | ok c => exact ⟨c, rfl⟩
    | error e =>
      rw [runFormat] at hformat
      simp only [bind, EStateM.bind, Terminal.ask, hload] at hformat
      cases hformat
  rcases files_of_runFormat hconfig hopen hread hformat with ⟨hcanonical, hfiles⟩ | hwrite
  · rw [← hfiles] at hconfig hopen hread hcanonical
    exact runFormat_of_canonical hconfig hopen hread hcanonical check
  · obtain ⟨bytes, hbytes, -⟩ := read_of_readScript hread
    obtain ⟨n, hname, hne⟩ := isNamed_of_openBundle hopen
    have hover := LawfulFileSystem.overwritten hbytes hwrite
    have hread' : b.readScript t'.files = .ok (Document.ofText s b t.files).text := by
      rw [readScript, hover.read_self]
      exact congrArg Except.ok (Text.decodeLossy_encode _)
    rw [← hover.load_eq hname hne] at hconfig
    rw [← hover.openBundle_eq] at hopen
    refine runFormat_of_canonical hconfig hopen hread' ?_ check
    rw [hover.ofText_eq, hstable]

end Command

/-! ### Settled scripts -/

open Recognition Synthesis

/-- Whether the canonical text of a script is its own canonical text, and a script that was formatted
stays as it is: any later run of the command, also one that only checks, says that it is
canonical. -/
structure IsSettled (b : Bundle) (fs : σ) (s : Text) : Prop where
  text_eq : (Document.ofText (Document.ofText s b fs).text b fs).text = (Document.ofText s b fs).text
  format : ∀ working input (t t' : Terminal σ), t.files = fs →
    Command.openBundle working input fs = .ok b → b.readScript fs = .ok s →
    Command.runFormat working input false t = .ok () t' →
    ∀ check, Command.runFormat working input check t' = Terminal.say (Command.canonicalLine b) t'

end ImageScript
