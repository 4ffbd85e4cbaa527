import PathOram.StashFiles
import PathOram.Atomicity
import PathOram.Failure
import PathOram.Load
import PathOram.Screening
import PathOram.Work
import PathOram.Batches
import PathOram.Secrecy
import PathOram.KeyShares
import PathOram.Cloak.Locations
import PathOram.Cloak.Recursion
import PathOram.Cloak.Store
import PathOram.Cloak.Eviction
import PathOram.Prefetch
import PathOram.Parser.Files
import PathOram.Parser.Selection
import PathOram.Proxy
import PathOram.Cloak.Populate
import PathOram.Cloak.Reopened
import PathOram.Cloak.Container
import PathOram.Cloak.Files
import PathOram.Cloak.Restore
import PathOram.Cloak.Watched
import PathOram.Cloak.Answers
import PathOram.Heights
import PathOram.Faults
import PathOram.Parser.Strings
import PathOram.Parser.Generators
import PathOram.Parser.Average
import PathOram.Parser.Appender
import PathOram.Parser.SqlParser
import PathOram.Persistence
