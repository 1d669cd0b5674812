import LuaData.Main
import LuaData.Session.Holdings
import LuaData.Session.Step
import LuaData.Proofs.Chunk.Acceptance
import LuaData.Proofs.Chunk.Capture
import LuaData.Proofs.Chunk.Prefix
import LuaData.Proofs.Chunk.RoundTrip
import LuaData.Proofs.Chunk.Soundness
import LuaData.Proofs.Table.Ahead
import LuaData.Proofs.Table.Walk
import LuaData.Proofs.Verification.Extension
import LuaData.Proofs.Chunk.Charges
import LuaData.Proofs.Chunk.Requests
import LuaData.Proofs.Chunk.Release
import LuaData.Proofs.Chunk.Trace
import LuaData.Proofs.Chunk.Reencoding
import LuaData.Proofs.Replay
import LuaData.Proofs.Table.Blocks
import LuaData.Proofs.Table.Akin
import LuaData.Proofs.Table.Hashing
import LuaData.Proofs.Table.Reshape
import LuaData.Proofs.Table.Growth
import LuaData.Proofs.Table.Barriers
import LuaData.Proofs.Table.Sizing
import LuaData.Proofs.Table.Border
import LuaData.Proofs.Table.Reading
import LuaData.Proofs.Accounting
import LuaData.Proofs.Interning
import LuaData.Proofs.Fields
import LuaData.Proofs.Double
import LuaData.Proofs.MainPosition
