import TextMining.Lib.Codec
import TextMining.WordNet.TermsProcessor

/-!
# Writing the index

`DumpIndex`, when every file operation succeeds. The relations are written in
the order in which the maps are visited and get new numbers on the way.
-/

namespace TextMining.WordNet

/-- The files of an index; `none` stands for a file that cannot be opened. -/
structure IndexFiles where
  ind1 : Option (List UInt8)
  ind2 : Option (List UInt8)
  n : Option (List UInt8)
  termInfo : Option (List UInt8)
  relateInfo : Option (List UInt8)

/-- The array `termstr`; what lies behind the string was never written. -/
def termArray (junk termstr : List UInt8) : List UInt8 :=
  (termstr ++ 0 :: junk ++ List.replicate 64 0).take 64

def TermInfo.header (t : TermInfo) (junk : List UInt8) : List UInt8 :=
  termArray junk t.termstr ++ writeU32 t.dfHistory ++ writeU32 t.dfNow ++ writeU32 t.relateTermNum

def RelateTermInfo.bytes (r : RelateTermInfo) : List UInt8 :=
  writeU32 r.numHistory ++ writeU32 r.numNow ++ writeU32 r.relation

def TotalIndexInfo.text (total : TotalIndexInfo) : List UInt8 :=
  TextMining.text "total_term:" ++ decimal (total.termNum % 2 ^ 32) ++
    TextMining.text "\ntotal_relate_term:" ++ decimal total.relateTermNum.toNat ++
    TextMining.text "\nsorted_relate_term:" ++ decimal total.sortedRelateTermNum.toNat ++
    TextMining.text "\ntotal_weibo:" ++ decimal total.weiboNum.toNat

namespace State

/-- The loop over the related terms of a term: what it adds to
`term_info.index` and to `relate_info.index`, and the count after it. -/
def dumpCooc (s : State) :
    List (Σ _ : UInt32, Nat) → UInt32 → List UInt8 × List UInt8 × UInt32
  | [], sorted => ([], [], sorted)
  | e :: order, sorted =>
    let (terms, relates, last) := s.dumpCooc order (sorted + 1)
    (writeU32 e.1 ++ writeU32 sorted ++ terms, (s.relate e.2).bytes ++ relates, last)

def dumpTerms (s : State) (ord : Order) (junk : Nat → List UInt8) :
    Nat → List TermInfo → UInt32 → List UInt8 × List UInt8 × UInt32
  | _, [], sorted => ([], [], sorted)
  | i, t :: ts, sorted =>
    let (cooc, relate, sorted) := s.dumpCooc (ord.walk i t.coocTerm) sorted
    let (terms, relates, sorted) := s.dumpTerms ord junk (i + 1) ts sorted
    (t.header (junk i) ++ cooc ++ terms, relate ++ relates, sorted)

/-- `indexOrd` visits `mTermIndex`, `ord` the map of each term. -/
def dumpIndex (s : State) (indexOrd ord : Order) (junk : Nat → List UInt8) : State × IndexFiles :=
  let order := indexOrd.walk 0 s.mTermIndex
  let (terms, relates, sorted) := s.dumpTerms ord junk 0 s.mTermInfo 0
  let s := { s with total := { s.total with sortedRelateTermNum := sorted } }
  (s,
    { ind1 := some (order.flatMap fun e => writeU32 e.1)
      ind2 := some (order.flatMap fun e => writeU32 (UInt32.ofNat e.2))
      n := some (snprintf 128 s.total.text)
      termInfo := some terms
      relateInfo := some relates })

end State

end TextMining.WordNet
