import SkynetGame.LogService

/-!
# What the log service keeps

With a disk that renames and reopens the log file when a rotation is due, a rotation leaves the
service with an open file and what was written and taken as it was (`Rolled`). The day's first
rotation takes a name without the date unless the file of that name is there already.
-/

namespace SkynetGame

open Bytes (ascii)

/-- The disk renames and reopens the log file, and lets its rotated files be read. -/
structure LogDisk.Good (d : LogDisk) (path : Bytes) : Prop where
  renamed : d.renamed = true
  reopened : d.reopened = true
  readable : ∀ p ∈ d.denied, ¬path <+: p

instance (d : LogDisk) (path : Bytes) : Decidable (d.Good path) :=
  decidable_of_iff (d.renamed = true ∧ d.reopened = true ∧ ∀ p ∈ d.denied, ¬path <+: p)
    ⟨fun h => ⟨h.1, h.2.1, h.2.2⟩, fun h => ⟨h.renamed, h.reopened, h.readable⟩⟩

namespace LogService

/-- What the log service promises: there is an open file from the first one on, what was taken was
written once and in order, each file holds what was written to it, and a rotation replaces no file
and names its target by the date. -/
structure Kept (conf : LogConf) (s : LogService) : Prop where
  logging : s.opened = true → s.logfile ≠ none
  once : s.written.map Prod.snd = s.accepted
  content : ∀ f, s.content f =
    (init conf).content f ++ (s.written.filter fun w => w.1 = f).flatMap Prod.snd
  rotations : ∀ r ∈ s.rotations, r.overwritten = false ∧ ∃ i, r.target = rotatedName r.path r.date i

/-- The steps that the service is up to: a file name whose file can be opened, and a rotation that
is due on a disk that is good, of a log file that is still there; where the day has changed, the
file whose name ends in `nil` is there, too. -/
def Tame (conf : LogConf) (s : LogService) : LogLabel → Prop
  | .log _ level _ now d₁ d₂ =>
    s.logLevel ≤ level → s.opened = true →
      s.DayDue conf now ∨ conf.maxLogFileSize ≤ s.getFileSize →
        d₁.Good s.pathText ∧ d₂.Good s.pathText ∧ (s.dir s.pathText).isSome = true ∧
          (s.DayDue conf now → s.isFileExists d₁ (s.pathText ++ ascii ".nil") = true)
  | .setLogFile _ _ ok => ok = true
  | .setLogLevel _ => True
  | .outside _ _ => True

instance (conf : LogConf) (s : LogService) (l : LogLabel) : Decidable (Tame conf s l) :=
  match l with
  | .log .. => inferInstanceAs (Decidable (_ → _))
  | .setLogFile .. => inferInstanceAs (Decidable (_ = _))
  | .setLogLevel _ => .isTrue trivial
  | .outside .. => .isTrue trivial

variable {conf : LogConf} {s s' : LogService} {d d₁ d₂ : LogDisk} {now : ℤ} {date : Bytes}
  {raised : Bool}

/-- What a rotation makes of a service with an open file. -/
structure Rolled (s s' : LogService) : Prop where
  logfile : s'.logfile ≠ none
  path : s'.logFilePath = s.logFilePath
  opened : s'.opened = s.opened
  accepted : s'.accepted = s.accepted
  written : s'.written = s.written
  content : s'.content = s.content
  rotations : ∀ r ∈ s'.rotations, r ∈ s.rotations ∨
    r.overwritten = false ∧ ∃ i, r.target = rotatedName r.path r.date i

theorem Rolled.refl (hl : s.logfile ≠ none) : Rolled s s :=
  ⟨hl, rfl, rfl, rfl, rfl, rfl, fun _ h => .inl h⟩

theorem Rolled.pathText (h : Rolled s s') : s'.pathText = s.pathText := by
  rw [LogService.pathText, h.path, LogService.pathText]

theorem Rolled.trans {t : LogService} (h : Rolled s s') (h' : Rolled s' t) : Rolled s t where
  logfile := h'.logfile
  path := h'.path.trans h.path
  opened := h'.opened.trans h.opened
  accepted := h'.accepted.trans h.accepted
  written := h'.written.trans h.written
  content := h'.content.trans h.content
  rotations := fun r hr => (h'.rotations r hr).elim (h.rotations r) .inr

theorem openFile_logfile {path : Bytes} : (s.openFile path).logfile ≠ none := by
  unfold openFile
  split <;> simp

theorem openFile_dir {path : Bytes} : ((s.openFile path).dir path).isSome = true := by
  unfold openFile
  split
  · rename_i h
    simp [h]
  · simp

section OpenFile

variable {path : Bytes}

@[simp] theorem openFile_logFilePath : (s.openFile path).logFilePath = s.logFilePath := by
  unfold openFile
  split <;> rfl

@[simp] theorem openFile_opened : (s.openFile path).opened = s.opened := by
  unfold openFile
  split <;> rfl

@[simp] theorem openFile_accepted : (s.openFile path).accepted = s.accepted := by
  unfold openFile
  split <;> rfl

@[simp] theorem openFile_written : (s.openFile path).written = s.written := by
  unfold openFile
  split <;> rfl

@[simp] theorem openFile_content : (s.openFile path).content = s.content := by
  unfold openFile
  split <;> rfl

@[simp] theorem openFile_rotations : (s.openFile path).rotations = s.rotations := by
  unfold openFile
  split <;> rfl

end OpenFile

theorem chooseFrom_spec (d : LogDisk) (path : Bytes) :
    ∀ (n i : ℕ) {p : Bytes}, s.chooseFrom d path date n i = some p →
      (∃ k, p = rotatedName path date k) ∧ s.isFileExists d p = false
  | 0, i, p, h => by cases h
  | n + 1, i, p, h => by
    simp only [chooseFrom] at h
    split_ifs at h with he
    · exact chooseFrom_spec d path n (i + 1) h
    · cases h
      exact ⟨⟨i, rfl⟩, by simpa using he⟩

theorem dir_of_not_exists (hd : d.Good s.pathText) {p : Bytes} (hp : s.pathText <+: p)
    (h : s.isFileExists d p = false) : s.dir p = none := by
  rcases hp' : s.dir p with _ | f
  · rfl
  · have hden : p ∉ d.denied := fun hm => hd.readable p hm hp
    simp [isFileExists, hp', hden] at h

theorem rollLog_rolled (hl : s.logfile ≠ none) (hp : s.logFilePath ≠ none)
    (hn : (s.dir s.pathText).isSome = true) (hd : d.Good s.pathText) {k : ℕ}
    (h : s.rollLog d (rotatedName s.pathText date k) date = (s', raised)) :
    raised = false ∧ Rolled s s' ∧ (s'.dir s.pathText).isSome = true := by
  obtain ⟨path, hp⟩ := Option.ne_none_iff_exists'.1 hp
  obtain ⟨file, hl'⟩ := Option.ne_none_iff_exists'.1 hl
  have hpath : s.pathText = path := by rw [pathText, hp]; rfl
  unfold rollLog at h
  by_cases he : s.isFileExists d (rotatedName s.pathText date k) = true
  · rw [if_pos he] at h
    cases h
    exact ⟨rfl, .refl hl, hn⟩
  rw [if_neg he] at h
  have hnone : s.dir (rotatedName path date k) = none := by
    rw [← hpath]
    exact dir_of_not_exists hd (by simp [rotatedName, List.append_assoc]) (by simpa using he)
  rw [hl', hp] at h
  simp only [rename, hd.renamed, hd.reopened, hpath ▸ hn, Bool.and_self, if_true] at h
  obtain ⟨rfl, rfl⟩ := Prod.mk.inj h
  refine ⟨rfl, ⟨openFile_logfile, ?_, ?_, ?_, ?_, ?_, fun r hr => ?_⟩, hpath.symm ▸ openFile_dir⟩
  · rw [openFile_logFilePath, hp]
  · rw [openFile_opened]
  · rw [openFile_accepted]
  · rw [openFile_written]
  · rw [openFile_content]
  rw [openFile_rotations] at hr
  simp only [List.mem_append, List.mem_singleton] at hr
  refine hr.imp_right fun hr => ?_
  subst hr
  refine ⟨?_, k, by rw [hpath]⟩
  simp only [hpath, hnone]
  rfl

theorem rollTo_rolled (hl : s.logfile ≠ none) (hp : s.logFilePath ≠ none)
    (hn : (s.dir s.pathText).isSome = true) (hd : d.Good s.pathText)
    (h : s.rollTo d (s.chooseSavePath d s.pathText date) date = (s', raised)) :
    raised = false ∧ Rolled s s' ∧ (s'.dir s.pathText).isSome = true := by
  rcases hc : s.chooseSavePath d s.pathText date with _ | p
  · rw [hc] at h
    cases h
    exact ⟨rfl, .refl hl, hn⟩
  · obtain ⟨⟨k, rfl⟩, -⟩ := chooseFrom_spec d s.pathText 1000000 1 hc
    rw [hc] at h
    exact rollLog_rolled hl hp hn hd h

theorem dayRename_rolled (hl : s.logfile ≠ none) (hp : s.logFilePath ≠ none)
    (hn : (s.dir s.pathText).isSome = true) (hd : d.Good s.pathText)
    (he : s.DayDue conf now → s.isFileExists d (s.pathText ++ ascii ".nil") = true)
    (h : s.dayRename conf now d = (s', raised)) :
    raised = false ∧ Rolled s s' ∧ (s'.dir s.pathText).isSome = true := by
  unfold dayRename at h
  by_cases hdue : s.DayDue conf now
  · simp only [if_pos hdue, if_pos (he hdue)] at h
    rcases hr : s.rollTo d (s.chooseSavePath d s.pathText (conf.date now)) (conf.date now) with
      ⟨t, raised'⟩
    obtain ⟨rfl, ht, hn⟩ := rollTo_rolled hl hp hn hd hr
    rw [hr] at h
    cases h
    exact ⟨rfl, ⟨ht.logfile, ht.path, ht.opened, ht.accepted, ht.written, ht.content,
      ht.rotations⟩, hn⟩
  · rw [if_neg hdue] at h
    cases h
    exact ⟨rfl, .refl hl, hn⟩

theorem sizeRename_rolled (hl : s.logfile ≠ none) (hp : s.logFilePath ≠ none)
    (hn : (s.dir s.pathText).isSome = true) (hd : d.Good s.pathText)
    (h : s.sizeRename conf now d = (s', raised)) :
    raised = false ∧ Rolled s s' ∧ (s'.dir s.pathText).isSome = true := by
  unfold sizeRename at h
  split_ifs at h
  · exact rollTo_rolled hl hp hn hd h
  · cases h
    exact ⟨rfl, .refl hl, hn⟩

theorem checkForRename_rolled (hl : s.logfile ≠ none) (hp : s.logFilePath ≠ none)
    (hn : (s.dir s.pathText).isSome = true) (hd₁ : d₁.Good s.pathText) (hd₂ : d₂.Good s.pathText)
    (he : s.DayDue conf now → s.isFileExists d₁ (s.pathText ++ ascii ".nil") = true)
    (h : s.checkForRename conf now d₁ d₂ = (s', raised)) :
    raised = false ∧ Rolled s s' ∧ (s'.dir s.pathText).isSome = true := by
  unfold checkForRename at h
  rcases hday : s.dayRename conf now d₁ with ⟨t, raised'⟩
  obtain ⟨rfl, ht, hn⟩ := dayRename_rolled hl hp hn hd₁ he hday
  rw [hday] at h
  have hpath := ht.pathText
  obtain ⟨hr, hs, hn⟩ := sizeRename_rolled (s := t) ht.logfile (by rw [ht.path]; exact hp)
    (by rw [hpath]; exact hn) (by rw [hpath]; exact hd₂) h
  exact ⟨hr, ht.trans hs, hpath ▸ hn⟩

theorem checkForRename_of_not_due (h : ¬(s.DayDue conf now ∨ conf.maxLogFileSize ≤ s.getFileSize)) :
    s.checkForRename conf now d₁ d₂ = (s, false) := by
  obtain ⟨hday, hsize⟩ := not_or.1 h
  simp only [checkForRename, dayRename, if_neg hday, sizeRename, if_neg hsize]

theorem rollTo_of_none (hl : s.logfile = none) {target : Option Bytes}
    (h : s.rollTo d target date = (s', raised)) : s' = s := by
  cases target with
  | none =>
    cases h
    rfl
  | some p =>
    simp only [rollTo, rollLog, hl] at h
    split_ifs at h <;> cases h <;> rfl

theorem dayRename_of_none (hl : s.logfile = none) (h : s.dayRename conf now d = (s', raised)) :
    ∃ o, s' = { s with openTime := o } := by
  unfold dayRename at h
  by_cases hdue : s.DayDue conf now
  · simp only [if_pos hdue] at h
    split at h
    · rename_i t ht
      cases h
      exact ⟨s.openTime, rollTo_of_none hl ht⟩
    · rename_i t ht
      cases h
      exact ⟨some now, by rw [rollTo_of_none hl ht]⟩
  · rw [if_neg hdue] at h
    cases h
    exact ⟨s.openTime, rfl⟩

theorem checkForRename_of_none (hl : s.logfile = none)
    (h : s.checkForRename conf now d₁ d₂ = (s', raised)) : ∃ o, s' = { s with openTime := o } := by
  unfold checkForRename at h
  split at h
  · rename_i t ht
    cases h
    exact dayRename_of_none hl ht
  · rename_i t ht
    obtain ⟨o, rfl⟩ := dayRename_of_none hl ht
    refine ⟨o, ?_⟩
    unfold sizeRename at h
    split_ifs at h
    · exact rollTo_of_none hl h
    · cases h
      rfl

structure Logging (conf : LogConf) (s : LogService) : Prop where
  kept : Kept conf s
  path : s.logfile ≠ none → s.logFilePath ≠ none
  opened : s.logfile ≠ none → s.opened = true

theorem kept_write {text : Bytes} (h : Kept conf s)
    (hr : Rolled { s with accepted := s.accepted ++ [text] } s') : Kept conf (s'.write text) := by
  obtain ⟨⟨f, pos⟩, hf⟩ := Option.ne_none_iff_exists'.1 hr.logfile
  have hw : s'.write text = { s' with
      logfile := some (f, (s'.content f ++ text).length)
      content := Function.update s'.content f (s'.content f ++ text)
      written := s'.written ++ [(f, text)] } := by
    simp only [write, hf]
  rw [hw]
  refine ⟨fun _ => Option.some_ne_none _, ?_, fun g => ?_, fun r hr' => ?_⟩
  · simp only [List.map_append, hr.written, hr.accepted, h.once]
    rfl
  · simp only [List.filter_append, List.flatMap_append, hr.written, hr.content]
    by_cases hg : g = f
    · subst hg
      rw [Function.update_self, h.content g, List.append_assoc]
      simp
    · have hgf : f ≠ g := fun h => hg h.symm
      rw [Function.update_of_ne hg, h.content g]
      simp [hgf]
  · exact (hr.rotations r hr').elim (h.rotations r) fun h => h

theorem write_logFilePath {text : Bytes} : (s.write text).logFilePath = s.logFilePath := by
  unfold write
  split <;> rfl

theorem write_opened {text : Bytes} : (s.write text).opened = s.opened := by
  unfold write
  split <;> rfl

theorem Logging.write {text : Bytes} (h : Logging conf s)
    (hr : Rolled { s with accepted := s.accepted ++ [text] } s') (ho : s.opened = true) :
    Logging conf (s'.write text) := by
  refine ⟨kept_write h.kept hr, fun _ => ?_, fun _ => ?_⟩
  · rw [write_logFilePath, hr.path]
    exact h.path (h.kept.logging ho)
  · rw [write_opened, hr.opened]
    exact ho

theorem Logging.log {source : ℕ} {level : ℤ} {msg : Bytes} (h : Logging conf s)
    (ht : Tame conf s (.log source level msg now d₁ d₂)) :
    Logging conf (s.log conf source level msg now d₁ d₂) := by
  unfold LogService.log
  by_cases hlevel : level < s.logLevel
  · rw [if_pos hlevel]
    exact h
  rw [if_neg hlevel]
  rcases hc : (s.take (logText source msg)).checkForRename conf now d₁ d₂ with ⟨t, raised⟩
  by_cases ho : s.opened = true
  · have hl := h.kept.logging ho
    have htake : s.take (logText source msg) =
        { s with accepted := s.accepted ++ [logText source msg] } := if_pos ho
    rw [htake] at hc
    have hr : raised = false ∧ Rolled { s with accepted := s.accepted ++ [logText source msg] } t := by
      by_cases hdue : s.DayDue conf now ∨ conf.maxLogFileSize ≤ s.getFileSize
      · obtain ⟨hd₁, hd₂, hn, he⟩ := ht (not_lt.1 hlevel) ho hdue
        obtain ⟨hr, hroll, -⟩ := checkForRename_rolled
          (s := { s with accepted := s.accepted ++ [logText source msg] }) hl (h.path hl) hn hd₁ hd₂
          he hc
        exact ⟨hr, hroll⟩
      · rw [checkForRename_of_not_due
          (s := { s with accepted := s.accepted ++ [logText source msg] }) hdue] at hc
        cases hc
        exact ⟨rfl, .refl hl⟩
    obtain ⟨rfl, hr⟩ := hr
    exact h.write hr ho
  · have hl : s.logfile = none := by
      by_contra hl
      exact ho (h.opened hl)
    have htake : s.take (logText source msg) = s := if_neg ho
    rw [htake] at hc
    obtain ⟨o, rfl⟩ := checkForRename_of_none hl hc
    have hlog : Logging conf { s with openTime := o } :=
      ⟨⟨h.kept.logging, h.kept.once, h.kept.content, h.kept.rotations⟩, h.path, h.opened⟩
    cases raised with
    | true => exact hlog
    | false =>
      have hw : { s with openTime := o }.write (logText source msg) = { s with openTime := o } := by
        simp only [LogService.write, hl]
      simp only [hw]
      exact hlog

theorem Logging.openlog {tag : Option Bytes} (h : Logging conf s) :
    Logging conf (s.openlog conf tag now true) := by
  unfold LogService.openlog
  simp only [if_true, Bool.or_true]
  refine ⟨⟨fun _ => openFile_logfile, ?_, fun f => ?_, ?_⟩, fun _ => ?_, fun _ => ?_⟩
  · rw [openFile_written, openFile_accepted]
    exact h.kept.once
  · rw [openFile_written, openFile_content]
    exact h.kept.content f
  · rw [openFile_rotations]
    exact h.kept.rotations
  · rw [openFile_logFilePath]
    exact Option.some_ne_none _
  · rw [openFile_opened]

theorem Logging.outside {path : Bytes} {present : Bool} (h : Logging conf s) :
    Logging conf (s.outside path present) := by
  unfold LogService.outside
  split_ifs
  · split
    · exact h
    · exact ⟨⟨h.kept.logging, h.kept.once, h.kept.content, h.kept.rotations⟩, h.path, h.opened⟩
  · exact ⟨⟨h.kept.logging, h.kept.once, h.kept.content, h.kept.rotations⟩, h.path, h.opened⟩

theorem Logging.setLogLevel {level : Bytes} (h : Logging conf s) :
    Logging conf (s.setLogLevel level) := by
  unfold LogService.setLogLevel
  split
  · exact ⟨⟨h.kept.logging, h.kept.once, h.kept.content, h.kept.rotations⟩, h.path, h.opened⟩
  · exact h

end LogService

end SkynetGame
