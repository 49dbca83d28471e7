import SkynetGame.Lib.Run
import SkynetGame.Lib.Bytes

/-!
# The log service (`services/persistent/log/logservice.lua`)

The commands come one after the other; what the clock and the calls of `io` and `os` say comes with
each. A file that is open goes on to exist without its name, so names lead to numbered files. Other
programs may make and remove names in between. Answers to the callers are left out.
-/

namespace SkynetGame

open Bytes (ascii)

/-- What the environment gives the service: its configuration, the calendar of `os.date`, and the
disk where it starts. -/
structure LogConf where
  logPath : Bytes
  logfilename : Bytes
  maxLogFileSize : ℤ
  -- `os.date("*t", t).day` and `os.date("%Y%m%d", t)`
  day : ℤ → ℕ
  date : ℤ → Bytes
  dir : Bytes → Option ℕ
  content : ℕ → Bytes
  nFiles : ℕ

/-- How the disk answers in a rotation: the names that it does not let be opened for reading, and
whether a rename and the opening after it succeed. -/
structure LogDisk where
  denied : List Bytes
  renamed : Bool
  reopened : Bool

/-- A rename of the log file on the given date, and whether the target named a file before. -/
structure LogRotation where
  path : Bytes
  target : Bytes
  date : Bytes
  overwritten : Bool
deriving DecidableEq

/-- The state of the service and of the disk. -/
structure LogService where
  -- the open file, and `logfile:seek()`
  logfile : Option (ℕ × ℕ)
  openTime : Option ℤ
  logFilePath : Option Bytes
  logLevel : ℤ
  dir : Bytes → Option ℕ
  content : ℕ → Bytes
  nFiles : ℕ
  -- whether a log file was opened, the messages at or above the log level that came since, what was
  -- written to which file, and the rotations
  opened : Bool
  accepted : List Bytes
  written : List (ℕ × Bytes)
  rotations : List LogRotation

/-- `const.log_level`. -/
def logLevelOf (level : Bytes) : Option ℤ :=
  if level = ascii "debug" then some 1
  else if level = ascii "info" then some 2
  else if level = ascii "warn" then some 3
  else if level = ascii "err" then some 4
  else if level = ascii "fatal" then some 5
  else none

/-- `string.format("[%08x]%s", source, msg)`. -/
def logText (source : ℕ) (msg : Bytes) : Bytes :=
  let digits := Nat.toDigits 16 source
  ascii "[" ++ ascii (String.ofList (List.replicate (8 - digits.length) '0' ++ digits)) ++
    ascii "]" ++ msg

/-- `string.format("%s.%s.%d", savePath, dataStr, i)`. -/
def rotatedName (savePath dataStr : Bytes) (i : ℕ) : Bytes :=
  savePath ++ ascii "." ++ dataStr ++ ascii "." ++ ascii (toString i)

namespace LogService

variable (conf : LogConf) (s : LogService)

/-- The service when it is started, without a log level in the environment. -/
def init : LogService where
  logfile := none
  openTime := none
  logFilePath := none
  logLevel := 1
  dir := conf.dir
  content := fun f => if f < conf.nFiles then conf.content f else []
  nFiles := conf.nFiles
  opened := false
  accepted := []
  written := []
  rotations := []

/-- `io.open(path, "a+")` where it succeeds. -/
def openFile (path : Bytes) : LogService :=
  match s.dir path with
  | some f => { s with logfile := some (f, 0) }
  | none =>
    { s with
      logfile := some (s.nFiles, 0)
      dir := Function.update s.dir path (some s.nFiles)
      nFiles := s.nFiles + 1 }

/-- `openlog`; the file that was open is not closed. -/
def openlog (tag : Option Bytes) (now : ℤ) (ok : Bool) : LogService :=
  let path := conf.logPath ++ ascii "/" ++ tag.getD conf.logfilename ++ ascii ".log"
  let s := { s with openTime := some now, logFilePath := some path, opened := s.opened || ok }
  if ok then s.openFile path else { s with logfile := none }

def getFileSize : ℕ := (s.logfile.map Prod.snd).getD 0

def isFileExists (d : LogDisk) (path : Bytes) : Bool :=
  (s.dir path).isSome && !d.denied.contains path

/-- `os.rename` of the log file, which replaces what the target named. -/
def rename (d : LogDisk) (path target date : Bytes) : Option LogService :=
  if d.renamed && (s.dir path).isSome then
    some { s with
      dir := Function.update (Function.update s.dir target (s.dir path)) path none
      rotations := s.rotations ++ [⟨path, target, date, (s.dir target).isSome⟩] }
  else none

/-- `rollLog`, and whether `io.close` or `os.rename` was called with nil, which is an error. -/
def rollLog (d : LogDisk) (savePath date : Bytes) : LogService × Bool :=
  if s.isFileExists d savePath then (s, false)
  else
    match s.logfile, s.logFilePath with
    | some _, some path =>
      match { s with logfile := none }.rename d path savePath date with
      | none => ({ s with logfile := none }, false)
      | some s' => if d.reopened then (s'.openFile path, false) else (s', false)
    | _, _ => (s, true)

/-- The loop of `chooseSavePath` from `i` on. -/
def chooseFrom (d : LogDisk) (savePath dataStr : Bytes) : ℕ → ℕ → Option Bytes
  | 0, _ => none
  | n + 1, i =>
    if s.isFileExists d (rotatedName savePath dataStr i) then chooseFrom d savePath dataStr n (i + 1)
    else some (rotatedName savePath dataStr i)

def chooseSavePath (d : LogDisk) (savePath dataStr : Bytes) : Option Bytes :=
  s.chooseFrom d savePath dataStr 1000000 1

/-- `if savePath then rollLog(savePath) end`. -/
def rollTo (d : LogDisk) (savePath : Option Bytes) (date : Bytes) : LogService × Bool :=
  match savePath with
  | some p => s.rollLog d p date
  | none => (s, false)

/-- What `%s` makes of `logFilePath`. -/
def pathText : Bytes := s.logFilePath.getD (ascii "nil")

/-- Whether the day of the month is another than when the log was opened. -/
def DayDue (now : ℤ) : Prop := conf.day now ≠ conf.day (s.openTime.getD now)

instance (now : ℤ) : Decidable (s.DayDue conf now) := inferInstanceAs (Decidable (_ ≠ _))

/-- The first part of `checkForRename`. Its `dataStr` is a global variable that nothing sets, so
the name ends in `nil`. -/
def dayRename (now : ℤ) (d : LogDisk) : LogService × Bool :=
  if s.DayDue conf now then
    let savePath := s.pathText ++ ascii ".nil"
    let target :=
      if s.isFileExists d savePath then s.chooseSavePath d s.pathText (conf.date now)
      else some savePath
    match s.rollTo d target (conf.date now) with
    | (s', true) => (s', true)
    | (s', false) => ({ s' with openTime := some now }, false)
  else (s, false)

/-- The second part of `checkForRename`. -/
def sizeRename (now : ℤ) (d : LogDisk) : LogService × Bool :=
  if conf.maxLogFileSize ≤ s.getFileSize then
    s.rollTo d (s.chooseSavePath d s.pathText (conf.date now)) (conf.date now)
  else (s, false)

/-- `checkForRename`, with the answers of the disk to each of its parts. -/
def checkForRename (now : ℤ) (d₁ d₂ : LogDisk) : LogService × Bool :=
  match s.dayRename conf now d₁ with
  | (s', true) => (s', true)
  | (s', false) => s'.sizeRename conf now d₂

/-- `logfile:write`. -/
def write (text : Bytes) : LogService :=
  match s.logfile with
  | none => s
  | some (f, _) =>
    { s with
      logfile := some (f, (s.content f ++ text).length)
      content := Function.update s.content f (s.content f ++ text)
      written := s.written ++ [(f, text)] }

/-- A message that the service has to write came in, if a log file was opened. -/
def take (text : Bytes) : LogService :=
  if s.opened then { s with accepted := s.accepted ++ [text] } else s

/-- `command.log`. -/
def log (source : ℕ) (level : ℤ) (msg : Bytes) (now : ℤ) (d₁ d₂ : LogDisk) : LogService :=
  if level < s.logLevel then s
  else
    match (s.take (logText source msg)).checkForRename conf now d₁ d₂ with
    | (s', true) => s'
    | (s', false) => s'.write (logText source msg)

def setLogLevel (level : Bytes) : LogService :=
  match logLevelOf level with
  | some l => { s with logLevel := l }
  | none => s

/-- Another program makes or removes a name. -/
def outside (path : Bytes) (present : Bool) : LogService :=
  if present then
    match s.dir path with
    | some _ => s
    | none =>
      { s with dir := Function.update s.dir path (some s.nFiles), nFiles := s.nFiles + 1 }
  else { s with dir := Function.update s.dir path none }

end LogService

/-- What can happen to the service. -/
inductive LogLabel
  | log (source : ℕ) (level : ℤ) (msg : Bytes) (now : ℤ) (d₁ d₂ : LogDisk)
  | setLogFile (tag : Option Bytes) (now : ℤ) (ok : Bool)
  | setLogLevel (level : Bytes)
  | outside (path : Bytes) (present : Bool)

namespace LogService

variable (conf : LogConf) (s : LogService)

def step : LogLabel → LogService
  | .log source level msg now d₁ d₂ => s.log conf source level msg now d₁ d₂
  | .setLogFile tag now ok => s.openlog conf tag now ok
  | .setLogLevel level => s.setLogLevel level
  | .outside path present => s.outside path present

def machine : Machine LogService LogLabel where
  init := init conf
  step := fun s l => some (s.step conf l)

end LogService

end SkynetGame
