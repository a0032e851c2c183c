import RecordLog.Session
import RecordLog.Proofs.FileNames
import RecordLog.Proofs.Enciphered
import RecordLog.Proofs.Isolation
import RecordLog.Proofs.Recovery
import RecordLog.Proofs.Agreement
import RecordLog.Proofs.Resuming
import RecordLog.Proofs.LateReading
import RecordLog.Proofs.KeptReaders
import RecordLog.Proofs.Artifacts
import RecordLog.Proofs.Layouts
import RecordLog.Proofs.BackgroundScans
import RecordLog.Proofs.Finality
import RecordLog.Proofs.Waiting
import RecordLog.Proofs.Capacity
import RecordLog.Proofs.KeyStreams
import RecordLog.Proofs.Framing
import RecordLog.Proofs.Damage
import RecordLog.Proofs.Histories
import RecordLog.Proofs.Numerals
import RecordLog.Proofs.CutContents
import RecordLog.Proofs.Packing
import RecordLog.Proofs.LargestPayload
import RecordLog.Proofs.SealedImage
import RecordLog.Proofs.RepeatedBytes
import RecordLog.Proofs.CheckedScans
import RecordLog.Proofs.CutValues
import RecordLog.Proofs.UnlinkedFile
import RecordLog.Proofs.DistinctNames
