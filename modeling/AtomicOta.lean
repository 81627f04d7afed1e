import AtomicOta.Artifact.Delivery
import AtomicOta.Esp.Effort
import AtomicOta.Esp.Inside
import AtomicOta.Esp.Levels
import AtomicOta.Esp.Overlap
import AtomicOta.Esp.Relocate
import AtomicOta.Otadata.Atomic
import AtomicOta.Otadata.CrashLoop
import AtomicOta.Otadata.Damage
import AtomicOta.Otadata.LastValid
import AtomicOta.Otadata.Protected
import AtomicOta.Otadata.Rough
import AtomicOta.Otadata.Trusted
import AtomicOta.Otadata.Once
import AtomicOta.Otadata.Seed
import AtomicOta.Otadata.Cycle
import AtomicOta.Otadata.Rollback
import AtomicOta.Otadata.Handover
import AtomicOta.Otadata.Horizon
import AtomicOta.Otadata.Wear
import AtomicOta.Otadata.Specification
import AtomicOta.Transaction.Lifecycle
import AtomicOta.Transaction.Finish
import AtomicOta.System.Loader
import AtomicOta.System.Progress
import AtomicOta.System.Versions
