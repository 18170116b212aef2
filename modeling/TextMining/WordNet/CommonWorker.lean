import TextMining.JenkinsHash.Keys
import TextMining.WordNet.ServerIndex

/-!
# The worker of the server

`DoWork` and what it calls. The JSON library is not part of the repository:
what its parser makes of a request and what `AddPairValue` does to a text are
given by an `Env`. `none` stands for an access outside an object, after which
there is no worker any more.
-/

namespace TextMining.WordNet.Server

/-- `JsonText_t`: `curLen` bytes of the buffer are the text. -/
structure JsonText where
  text : List UInt8
  curLen : Nat

def JsonText.current (t : JsonText) : List UInt8 := t.text.take t.curLen

/-- What `ParseJson` makes of a request. The pairs have the C string of a
value of type `V_STR`, and `none` for any other value. -/
inductive Json
  | error
  | otherRoot
  | pairArray (pairs : List (List UInt8 × Option (List UInt8)))

structure Env where
  hashlittle : List UInt8 → UInt32
  parseJson : List UInt8 → Json
  addPairValue : JsonText → List UInt8 → List UInt8 → JsonText
  /-- Whether `readahead` of a record at the offset succeeds. -/
  readahead : UInt32 → Bool
  /-- `std::sort` with `CmpTerm`. -/
  sort : List (List UInt8 × UInt32) → List (List UInt8 × UInt32)
  ord : Order

structure WorkData where
  ptext : JsonText
  queryType : Option (List UInt8)
  content : Option (List UInt8)

/-- What a request reads and writes: the worker and the global data. -/
structure WorkerState where
  work : WorkData
  global : GlobalData

/-- An environment that hashes and sorts as the server does, and puts each pair
behind the text. -/
def plainEnv (parseJson : List UInt8 → Json) : Env where
  hashlittle := JenkinsHash.hashString
  parseJson
  addPairValue t key value :=
    let text := t.current ++ key ++ [58] ++ value ++ [44]
    ⟨text, text.length⟩
  readahead _ := true
  sort terms := terms.mergeSort fun a b => b.2 ≤ a.2
  ord := IterOrder.held _ _

-- ---------------------------------------------------------------------------
-- Parsing
-- ---------------------------------------------------------------------------

/-- The loop over the pairs; the result is whether no value was rejected. -/
def parsePairs : List (List UInt8 × Option (List UInt8)) → WorkData → Bool × WorkData
  | [], work => (true, work)
  | (key, value) :: pairs, work =>
    if key = text "qt" then
      match value with
      | none => (false, work)
      | some str => parsePairs pairs { work with queryType := some str }
    else if key = text "content" then
      match value with
      | none => (false, work)
      | some str => parsePairs pairs { work with content := some str }
    else parsePairs pairs work

def parseJsonInput (json : Json) (work : WorkData) : Bool × WorkData :=
  match json with
  | .error => (false, work)
  | .otherRoot => (false, work)
  | .pairArray pairs => parsePairs pairs work

-- ---------------------------------------------------------------------------
-- Answers
-- ---------------------------------------------------------------------------

def termAt (termInfo : List TermInfo) (i : Int32) : Option TermInfo := termInfo[i.toUInt32.toNat]?

def hotTerms (termInfo : List TermInfo) (hotTermBuf : List SortItem) : List SortItem :=
  (termInfo.zipIdx).foldl
    (fun buf (t, i) => State.filtPush t.dfNow 1000 i (UInt32.ofNat i) buf) hotTermBuf

/-- The loop over the selection, which comes in the order of the loop. -/
def hotText (termInfo : List TermInfo) : List SortItem → List UInt8 → Option (List UInt8)
  | [], buf => some buf
  | item :: items, buf =>
    if buf.length < 2000 then
      match termAt termInfo item.appendix with
      | none => none
      | some t =>
        hotText termInfo items
          (buf ++ snprintf 100 (t.termstr ++ text ":" ++ decimalInt t.dfNow.toInt32.toInt ++
            text " "))
    else some buf

section
variable (env : Env)

def answer (ptext : JsonText) : Option (List UInt8) := some ptext.current

/-- The answers are `none` where the result buffer is left alone. -/
def getHotTerm (s : WorkerState) : Option (Option (List UInt8) × WorkerState) :=
  let hotTermBuf := hotTerms s.global.termInfo s.global.hotTermBuf
  match hotText s.global.termInfo (hotTermBuf.take 1000).reverse [] with
  | none => none
  | some buf =>
    let ptext := env.addPairValue { s.work.ptext with curLen := 0 } (text "hot_term") buf
    some (answer ptext,
      { work := { s.work with ptext }, global := { s.global with hotTermBuf } })

def relateInfoOf (m : FileMmap) (e : Σ _ : UInt32, Nat) : Option RelateTermInfo :=
  m.relateInfo (relateOffset e.2)

def weight (weiboNum : UInt64) (related : TermInfo) (r : RelateTermInfo) : UInt32 :=
  let idf := (Float32.log10 (weiboNum.toFloat32 /
    (related.dfNow + related.dfHistory).toFloat32)).toInt32
  r.numNow * idf.toUInt32 * idf.toUInt32

/-- The loop over the related terms of a query. `TermIndex[..]` inserts a key
it does not have, with the value 0. The second component is `none` when
`readahead` fails. -/
def coocTerms (g : GlobalData) :
    List (Σ _ : UInt32, Nat) → HashMap UInt32 Nat → List (List UInt8 × UInt32) →
      Option (HashMap UInt32 Nat × Option (List (List UInt8 × UInt32)))
  | [], termIndex, found => some (termIndex, some found)
  | e :: order, termIndex, found =>
    let termIndex := termIndex.insertNew e.1 0
    match g.termInfo[(termIndex.lookup e.1).getD 0]? with
    | none => none
    | some related =>
      if env.readahead (relateOffset e.2) then
        match relateInfoOf g.fileMmap e with
        | none => none
        | some r =>
          coocTerms g order termIndex
            (found ++ [(related.termstr, weight g.totalIndexInfo.weiboNum related r)])
      else some (termIndex, none)

def coocText : List (List UInt8 × UInt32) → List UInt8 → List UInt8
  | [], buf => buf
  | t :: ts, buf =>
    if buf.length < 900 then
      coocText ts (buf ++ snprintf 100 (t.1 ++ text ":" ++ decimal t.2.toNat ++ text " "))
    else buf

def getCoocTerm (content : List UInt8) (s : WorkerState) : Option (Option (List UInt8) × WorkerState) :=
  let ptext := { s.work.ptext with curLen := 0 }
  match s.global.termIndex.lookup (env.hashlittle content) with
  | none =>
    let ptext := env.addPairValue ptext (text "cooc") []
    some (answer ptext, { s with work := { s.work with ptext } })
  | some index =>
    match s.global.termInfo[index]? with
    | none => none
    | some info =>
      let ptext := env.addPairValue ptext (text "term") info.termstr
      let ptext := env.addPairValue ptext (text "df") (decimalInt info.dfNow.toInt32.toInt)
      match coocTerms env s.global (env.ord.walk index info.coocTerm) s.global.termIndex [] with
      | none => none
      | some (termIndex, found) =>
        let global := { s.global with termIndex }
        match found with
        | none => some (none, { work := { s.work with ptext }, global })
        | some found =>
          let ptext := env.addPairValue ptext (text "cooc") (coocText (env.sort found) [])
          some (answer ptext, { work := { s.work with ptext }, global })

def genJsonResult (queryType content : List UInt8) (s : WorkerState) :
    Option (Option (List UInt8) × WorkerState) :=
  if atoi queryType = 0 then getHotTerm env s
  else if atoi queryType = 1 then getCoocTerm env content s
  else some (none, s)

/-- The return code and what was written to the result buffer. -/
structure Reply where
  code : Nat
  result : Option (List UInt8)
  deriving DecidableEq

def doWork (s : WorkerState) (request : List UInt8) : Option (Reply × WorkerState) :=
  let (ok, work) := parseJsonInput (env.parseJson request) s.work
  let s := { s with work }
  match ok, work.content with
  | true, some content =>
    match work.queryType with
    -- `atoi` of a null pointer
    | none => none
    | some queryType =>
      match genJsonResult env queryType content s with
      | none => none
      | some (result, s) => some (⟨0, result⟩, s)
  | _, _ => some (⟨1, none⟩, s)

end

end TextMining.WordNet.Server
