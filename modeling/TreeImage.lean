import TreeImage.Build.Builder
import TreeImage.Command.Memory
import TreeImage.Command.Run
import TreeImage.Image.Query
import TreeImage.Main
import TreeImage.Proofs.Build.Arrangement
import TreeImage.Proofs.Build.LifeCycle
import TreeImage.Proofs.Build.Owners
import TreeImage.Proofs.Build.Truncation
import TreeImage.Proofs.Codec.FrameLimit
import TreeImage.Proofs.Format.CutShort
import TreeImage.Proofs.Format.Header
import TreeImage.Proofs.Image.Confinement
import TreeImage.Proofs.Image.Expansion
import TreeImage.Proofs.Image.PositionedRead
import TreeImage.Proofs.Image.StreamCursor
import TreeImage.Proofs.Image.TableBounds
import TreeImage.Proofs.Image.WalkEnd
import TreeImage.Proofs.Staging.Growth
import TreeImage.Proofs.Staging.Writes
import TreeImage.Proofs.Storage.Addresses
import TreeImage.Proofs.Storage.Transfer
import TreeImage.Proofs.Table.EntryPlaces
import TreeImage.Proofs.Table.LookupReadBack
import TreeImage.Proofs.Table.ReadBack
import TreeImage.Proofs.Walk.Steering
