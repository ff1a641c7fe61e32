import DictToolkit.OffdeviceIntermediateDict.PtNode
import DictToolkit.OffdeviceIntermediateDict.AddWord
import DictToolkit.OffdeviceIntermediateDict.GetWordProperty
import DictToolkit.OffdeviceIntermediateDict.Trie
import DictToolkit.OffdeviceIntermediateDict.AddWordCorrect
import DictToolkit.OffdeviceIntermediateDict.Dictionary
import DictToolkit.OffdeviceIntermediateDict.GetWordPropertyCorrect
import DictToolkit.OffdeviceIntermediateDict.Runs
import DictToolkit.OffdeviceIntermediateDict.Faults
import DictToolkit.Utils.Utf8Utils
import DictToolkit.Utils.Utf8UtilsCorrect
import DictToolkit.Utils.ArgumentsParser
import DictToolkit.Utils.ArgumentsParserCorrect
import DictToolkit.CommandExecutors
import DictToolkit.CommandLine
import DictToolkit.Utils.Utf8Sequences
