import PikaScript.VM.Registers
import PikaScript.VM.FrameCache
import PikaScript.VM.Unpack
import PikaScript.VM.Arith
import PikaScript.VM.Truth
import PikaScript.VM.Repeat
import PikaScript.VM.Literal
import PikaScript.VM.Slice
import PikaScript.Compiler.Image
import PikaScript.Compiler.Maker
import PikaScript.Data.Dict
import PikaScript.Data.List
import PikaScript.Data.Stack
import PikaScript.Event.Await
import PikaScript.Library.Archive
import PikaScript.Memory.ArgCache
import PikaScript.Object.Bytes
import PikaScript.Object.Collector
import PikaScript.Object.Lookup
import PikaScript.Object.Range
import PikaScript.Data.ByteQueue
import PikaScript.Lib.Zipper
import PikaScript.Shell.History
import PikaScript.Shell.LineEditor
import PikaScript.Shell.Filter
import PikaScript.Lib.Tokens
import PikaScript.Library.PackedFile
import PikaScript.Library.Redirect
import PikaScript.Data.Utf8Valid
import PikaScript.StdLib.StringIndex
import PikaScript.Lib.Utf16
import PikaScript.StdLib.Encode
import PikaScript.StdLib.FileIo
import PikaScript.StdLib.Split
import PikaScript.StdLib.Affix
import PikaScript.Data.ArgEqual
import PikaScript.Data.ByteQueueCalls
import PikaScript.Data.Queue
import PikaScript.Parser.Docstring
import PikaScript.Parser.Lexer
import PikaScript.Parser.StringRegion
import PikaScript.Parser.Munch
import PikaScript.Parser.Cursor
import PikaScript.Parser.SelfOperator
import PikaScript.Parser.SubStmt
import PikaScript.Parser.Listing
import PikaScript.Parser.Format
import PikaScript.Data.Itoa
import PikaScript.Lib.Compaction
import PikaScript.VM.Breakpoint
import PikaScript.VM.JumpQueue
import PikaScript.Text.Replace
import PikaScript.Text.Writer
import PikaScript.Text.Path
import PikaScript.Text.Indent
import PikaScript.Text.Preprocess
import PikaScript.VM.InstructionSet
import PikaScript.Data.ArgList
import PikaScript.Data.ArgMap
import PikaScript.Parser.Splitting
import PikaScript.VM.Quoted
import PikaScript.Lib.Commands
import PikaScript.VM.RunFrame
import PikaScript.VM.Meaning
import PikaScript.VM.Blocks
import PikaScript.VM.Lines
import PikaScript.VM.Methods
import PikaScript.Parser.Expression
import PikaScript.VM.Evaluation
import PikaScript.Lib.DataRefinement
import PikaScript.Parser.AstProgram
import PikaScript.VM.AstLines
import PikaScript.VM.AstRuns
