import SimpleCacheTool.Chromium.DirectoryScan
import SimpleCacheTool.Chromium.EntryLife
import SimpleCacheTool.Chromium.Eviction
import SimpleCacheTool.Chromium.ReadStream
import SimpleCacheTool.CodeCache.Imitation
import SimpleCacheTool.CodeCache.Key
import SimpleCacheTool.CodeCache.Recognised
import SimpleCacheTool.Entry.Rejection
import SimpleCacheTool.Index.Grammar
import SimpleCacheTool.Library.ModifyRun
import SimpleCacheTool.Metadata.ContentLength
import SimpleCacheTool.Metadata.Total
