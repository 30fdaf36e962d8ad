import Dbflux.Lib.Transition
import Dbflux.Lib.History
import Dbflux.Lib.Text
import Dbflux.DataTable.EditBuffer
import Dbflux.DataTable.Undo
import Dbflux.DataTable.Redo
import Dbflux.Approval.Model
import Dbflux.Approval.Safety
import Dbflux.Approval.Outstanding
import Dbflux.Delimited.Layout
import Dbflux.Delimited.Scan
import Dbflux.Delimited.Reader
import Dbflux.Delimited.ReaderSpec
import Dbflux.Delimited.ReaderPages
import Dbflux.ByteSource.Reader
import Dbflux.Delimited.Invalidate
import Dbflux.Delimited.Writer
import Dbflux.Delimited.Render
import Dbflux.Delimited.WriterOutput
import Dbflux.Delimited.WriterPlan
import Dbflux.Delimited.WriterSave
import Dbflux.Delimited.WriterPieces
import Dbflux.Delimited.WriterReadBack
import Dbflux.Delimited.RoundTrip
import Dbflux.Delimited.Preserve
import Dbflux.Delimited.Calendar
import Dbflux.Session.Binding
import Dbflux.Session.Kept
import Dbflux.Postgres.TransactionControl
import Dbflux.Postgres.Batch
import Dbflux.Postgres.BatchRefinement
import Dbflux.Sql.Split
import Dbflux.Sqlite.Execute
import Dbflux.Sqlite.Agree
import Dbflux.Lib.Scanner
import Dbflux.Sql.Safety
import Dbflux.Sql.SafetyPostgres
import Dbflux.Sql.SafetyTsql
import Dbflux.Lib.SplitN
import Dbflux.Schema.NodeId
import Dbflux.Schema.NodeIdFaithful
import Dbflux.Transfer.Pipeline
import Dbflux.Transfer.Sources
import Dbflux.Transfer.Folder
import Dbflux.Transfer.FolderExport
import Dbflux.Transfer.FolderImport
import Dbflux.Transfer.FolderRoundTrip
import Dbflux.Lib.Kahn
import Dbflux.Schema.DependencyOrder
import Dbflux.Transfer.Migration
import Dbflux.Spreadsheet.CellName
import Dbflux.Spreadsheet.CellText
import Dbflux.Lib.Json
import Dbflux.Lib.Regex
import Dbflux.Audit.Redaction
import Dbflux.Audit.TracingBridge
import Dbflux.Lib.Tree
import Dbflux.DocumentEdit.Patch
import Dbflux.DocumentEdit.Stored
import Dbflux.Mongo.Bson
import Dbflux.Mongo.Update
import Dbflux.Mongo.Query
import Dbflux.Mongo.Governance
import Dbflux.Mysql.EnumType
import Dbflux.Lib.Literal
import Dbflux.Transfer.Literal
import Dbflux.Mcp.Explain
import Dbflux.Mcp.ScriptApproval
import Dbflux.Lib.Slice
import Dbflux.Query.Classify
import Dbflux.Query.EditableBinding
import Dbflux.Query.DottedPath
import Dbflux.Lib.PathWalk
import Dbflux.Mcp.ScriptPath
import Dbflux.Mcp.ResultColumns
import Dbflux.Lib.Lines
import Dbflux.Ssh.KnownHosts
import Dbflux.Ssh.Pinning
import Dbflux.Lib.BoolExpr
import Dbflux.Dynamo.Filter
import Dbflux.Dynamo.Translation
import Dbflux.Dynamo.Collect
import Dbflux.Dynamo.Mutation
import Dbflux.Vim.WordMotion
import Dbflux.Ipc.Framing
import Dbflux.Parquet.Window
import Dbflux.TextEdit.LongestRun
