import SdkTools.Lib.Run
import SdkTools.Lib.Interval
import SdkTools.Types
import SdkTools.MemoryMap.Model
import SdkTools.MemoryMap.Runs
import SdkTools.MemoryMap.ReadRange
import SdkTools.Lib.Operators
import SdkTools.M4.Safety
import SdkTools.M4.StreamRefinement
import SdkTools.Masm.Evaluation
import SdkTools.Masm.Literals
import SdkTools.Asn1.Effective
import SdkTools.Asn1.IntxArithmetic
import SdkTools.Registry.KeynodeRuns
import SdkTools.Registry.FileSafety
import SdkTools.Registry.DatablockRuns
import SdkTools.Mep.UndoRuns
import SdkTools.Nmake.Conditionals
import SdkTools.Nmake.IfDefects
import SdkTools.Nmake.Derivable
import SdkTools.Nmake.BuildOrder
import SdkTools.Kd.ReadAhead
import SdkTools.Kd.BreakPointEx
import SdkTools.Rc.MacroMap
import SdkTools.Rc.ConstExprParser
import SdkTools.Rc.IfReports
import SdkTools.Imagehlp.RebaseRuns
import SdkTools.Imagehlp.CheckSumLaw
import SdkTools.Lib.Grammar
import SdkTools.Windiff.TreeMap
import SdkTools.Asn1.IntxFits
import SdkTools.Asn1.PerSizes
import SdkTools.Registry.Hives
import SdkTools.Registry.KeynodeRoundTrip
import SdkTools.M4.ArgumentHold
import SdkTools.M4.DigitPrefix
import SdkTools.M4.Patsubst
import SdkTools.M4.QuotedTokens
import SdkTools.M4.MacroExpansion
import SdkTools.Rc.IntegerLiterals
import SdkTools.Ztools.TranslateLength
import SdkTools.Imagehlp.RelocationWalk
import SdkTools.Nmake.Substitution
import SdkTools.Nmake.DependentRuns
import SdkTools.MemoryCache.SplaySwap
import SdkTools.MemoryCache.CacheGuarantees
import SdkTools.Mep.ColorRuns
