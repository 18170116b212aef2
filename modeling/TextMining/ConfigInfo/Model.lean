import TextMining.Lib.Codec
import TextMining.Lib.OrdMap
import TextMining.Splitting
import Mathlib.Data.List.DropRight

/-!
# Configuration files

`CConfigInfo` reads a file of assignments. A `#` starts a comment, and
`#include` names a file that is read first. `m_nRecurseCount` is what stops
files that include each other. The file system is a function from names to the
bytes of the files that are there.
-/

namespace TextMining

-- ---------------------------------------------------------------------------
-- CStringTool::Trim
-- ---------------------------------------------------------------------------

namespace StringTool

def leftTrim (ss : List UInt8) : List UInt8 := ss.dropWhile isSpace

def rightTrim (ss : List UInt8) : List UInt8 := ss.rdropWhile isSpace

def trim (str : List UInt8) : List UInt8 := rightTrim (leftTrim str)

end StringTool

open StringTool (find findStr substr u32 trim)
open LibWb (SpliteByChar npos64)

abbrev FileSystem := List UInt8 → Option (List UInt8)

/-- `openFiles` and `maxOpenFiles` count the streams that are open, and no
branch of the program reads them. -/
structure CConfigInfo where
  strConfigFile : List UInt8
  nRecurseCount : Int
  mapConfig : OrdMap (List UInt8) (List UInt8)
  openFiles : Nat
  maxOpenFiles : Nat

namespace CConfigInfo

def getValue (s : CConfigInfo) (strValue : List UInt8) : List UInt8 :=
  (s.mapConfig.lookup strValue).getD []

/-- The search is for `strValue`; `strKey` is not used. -/
def setValue (s : CConfigInfo) (_strKey strValue : List UInt8) : CConfigInfo :=
  if strValue ∈ s.mapConfig then
    { s with mapConfig := s.mapConfig.modify strValue fun _ => strValue }
  else s

def savedLine (e : List UInt8 × List UInt8) : List UInt8 := e.1 ++ text "=" ++ e.2

def saveConfig (s : CConfigInfo) (fs : FileSystem) : FileSystem := fun name =>
  if name = s.strConfigFile then some (s.mapConfig.entries.flatMap fun e => savedLine e ++ [10])
  else fs name

-- ---------------------------------------------------------------------------
-- LoadConfig
-- ---------------------------------------------------------------------------

def addLine (cSplitChar : UInt8) (s : CConfigInfo) (line : List UInt8) : Option CConfigInfo :=
  if line.length = 0 then some s
  else
    match SpliteByChar npos64 line cSplitChar with
    | none => none
    | some (key :: value :: _) =>
      some { s with mapConfig := s.mapConfig.insert (trim key) (trim value) }
    | some _ => some s

def loadLine (load : List UInt8 → CConfigInfo → Option CConfigInfo) (cSplitChar : UInt8)
    (s : CConfigInfo) (line : List UInt8) : Option CConfigInfo :=
  let pos := u32 (find npos64 line 35 0)
  if pos ≠ npos64 then do
    let pos1 := u32 (findStr npos64 line (text "include") pos)
    let s ←
      if pos1 ≠ npos64 ∧ pos1 = u32 (pos + 1) then do
        let includeFile ← substr line (u32 (pos1 + 7)) (sizeDiff (sizeDiff line.length pos1) 7)
        if s.nRecurseCount > 10 then some s else load (cstr (trim includeFile)) s
      else some s
    let line ← substr line 0 pos
    addLine cSplitChar s line
  else addLine cSplitChar s line

def enter (s : CConfigInfo) : CConfigInfo :=
  { s with
    nRecurseCount := s.nRecurseCount + 1
    openFiles := s.openFiles + 1
    maxOpenFiles := max s.maxOpenFiles (s.openFiles + 1) }

def leave (s : CConfigInfo) : CConfigInfo :=
  { s with nRecurseCount := s.nRecurseCount - 1, openFiles := s.openFiles - 1 }

/-- `none` when `substr` throws, or when calls are nested deeper than the fuel. -/
def loadConfig (fs : FileSystem) (cSplitChar : UInt8) :
    Nat → List UInt8 → CConfigInfo → Option CConfigInfo
  | 0, _, _ => none
  | fuel + 1, cConfigFile, s =>
    match fs cConfigFile with
    | none => some s
    | some bytes =>
      ((bytes.splitOn 10).foldlM (loadLine (loadConfig fs cSplitChar fuel) cSplitChar)
        s.enter).map leave

def construct (fs : FileSystem) (fuel : Nat) (cConfigFile : List UInt8) (cSplitChar : UInt8) :
    Option CConfigInfo :=
  loadConfig fs cSplitChar fuel cConfigFile ⟨cConfigFile, 0, .empty, 0, 0⟩

end CConfigInfo

end TextMining
