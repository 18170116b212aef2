import TextMining.Lib.Suffix
import TextMining.Lib.Windows
import TextMining.Lib.Merging
import TextMining.AhoCorasick.Rebuild
import TextMining.AhoCorasick.Offsets
import TextMining.WordNet.Symmetry
import TextMining.WordNet.Recycle
import TextMining.WordNet.Incremental
import TextMining.WordNet.Lookup
import TextMining.WordNet.Requests
import TextMining.WordNet.TopRelations
import TextMining.WordNet.Accepted
import TextMining.WordNet.ReplyText
import TextMining.WordNet.Stream
import TextMining.FlatJson
import TextMining.CMBTextTool.KillURL
import TextMining.CMBTextTool.KillElements
import TextMining.CMBTextTool.ExtractNickName
import TextMining.Splitting
import TextMining.LandMark.Search
import TextMining.Algorithms.BinarySearchTree
import TextMining.Algorithms.QuickSort
import TextMining.Algorithms.HeapSort
import TextMining.Algorithms.MergeableHalves
import TextMining.Algorithms.FindTwoSubstringDaiwei
import TextMining.Algorithms.ListCircle
import TextMining.Algorithms.BinarySearch
import TextMining.Algorithms.PositiveNegative
import TextMining.WeiboWordNet.Slots
import TextMining.NBClassifier.Cache
import TextMining.NBClassifier.Continue
import TextMining.NBClassifier.Profile
import TextMining.NBClassifier.Transparent
import TextMining.NBClassifier.SelectTags
import TextMining.NBClassifier.TopNClass
import TextMining.NBClassifier.MaxTrainDataNum
import TextMining.BfdClassTree.Leaves
import TextMining.SegDataCrf.ClassTree
import TextMining.CrfDataNoSeg.Marks
import TextMining.SegmentLineSVM.Alignment
import TextMining.Classifier.PrepareTrainingData
import TextMining.HotBlog.GetKeyword
import TextMining.HotBlog.KeyWords
import TextMining.HotBlog.Article
import TextMining.HotBlog.WeiboProcessor
import TextMining.TagExtract.Cells
import TextMining.ConfigInfo.Save
import TextMining.LibCrf.Partition
import TextMining.JenkinsHash.Keys
import TextMining.WordNet.Runs
import TextMining.Utf8
import TextMining.Utf8Escape
import TextMining.CrfDataNoSeg.WideNames
